import Linux001.Mm.RefCount

/-! What each function of `mm/memory.c` does to the user pages: it keeps the invariant of `mem_map`,
and it changes the entries of the pages it is called for. -/

namespace Linux001.Mm

open Function ProofKit

/-- A property that gives the invariant and that table and count changes keep. -/
class Kept (I : Memory → List Nat → Prop) : Prop where
  inv {s got} : I s got → Inv s got
  alloc {s s' got page} : I s got → getFreePage s = some (page, s') → I s' (page :: got)
  grow {s s' got} : I s got → Wf s' → Extends s s' → I s' got
  setPage {s got page} {words : Fin 512 → Word} : I s got → ¬s.IsTable page →
    I (s.setPage page words) got
  install {s got got' p t page} : I s got → p ∈ userPages → s.tableAt (path (4096 * p)) = some t →
    s.lookup (4096 * p) = none → page ∈ got → (∀ g, g ∈ got' ↔ g ∈ got ∧ g ≠ page) →
    I (s.store t (ptIndex (4096 * p)) (entry page)) got'
  permit {s got p t e} : I s got → p ∈ userPages → s.lookup (4096 * p) = some e →
    s.tableAt (path (4096 * p)) = some t → s.memMap (mapNr (pteAddr e)) = 1 →
    I (s.store t (ptIndex (4096 * p)) (e ||| pageWrite)) got
  drop {s got p t e} : I s got → p ∈ userPages → s.lookup (4096 * p) = some e →
    s.tableAt (path (4096 * p)) = some t →
    I ((s.setCount (mapNr (pteAddr e)) (s.memMap (mapNr (pteAddr e)) - 1)).store t
      (ptIndex (4096 * p)) 0) got
  share {s got p q t u e} : I s got → p ∈ userPages → q ∈ userPages →
    s.lookup (4096 * p) = some e → s.lookup (4096 * q) = none →
    s.tableAt (path (4096 * p)) = some t → s.tableAt (path (4096 * q)) = some u →
    colour q = colour p →
    I (((s.store u (ptIndex (4096 * q)) (e &&& ~~~pageWrite)).store t (ptIndex (4096 * p))
      (e &&& ~~~pageWrite)).setCount (mapNr (pteAddr e)) (s.memMap (mapNr (pteAddr e)) + 1)) got

instance : Kept Inv where
  inv := id
  alloc h hs := (h.alloc hs).1
  grow := Inv.extends
  setPage := Inv.setPage
  install h hp ht hnone hpage hgot := h.install hp ht hnone hpage fun g => (hgot g).mp
  permit := Inv.permit
  drop := Inv.drop
  share := Inv.share

variable {I : Memory → List Nat → Prop} [Kept I] {s s' : Memory} {got got' : List Nat}
  {p q t page a : Nat} {e w : Word} {x v : Option (Word × (Fin 512 → Word))} {n : Nat} {s1 : Memory}

def readOnly (v : Option (Word × (Fin 512 → Word))) : Option (Word × (Fin 512 → Word)) :=
  v.map fun x => (x.1 &&& ~~~pageWrite, x.2)

theorem update_view_self (h : s.view p = x) : update s.view p x = s.view := by
  rw [← h, update_eq_self]

theorem view_none_of_table (h : s.tableAt (path (4096 * p)) = none) : s.view p = none := by
  rw [view_eq_none_iff, lookup_eq_none_iff, leaf_of_none h]
  rfl

theorem view_none_of_absent (h : present (s.leaf (4096 * p)) = false) : s.view p = none :=
  view_eq_none_iff.mpr (lookup_eq_none_iff.mpr h)

theorem lookup_of_present (h : s.tableAt (path (4096 * p)) = some t)
    (hpres : present (s.mem t (ptIndex (4096 * p))) = true) :
    s.lookup (4096 * p) = some (s.mem t (ptIndex (4096 * p))) :=
  lookup_eq_some_iff.mpr ⟨leaf_of_table h, hpres⟩

theorem view_of_lookup (h : s.lookup (4096 * p) = some e) :
    s.view p = some (e, s.mem (pteAddr e)) := by
  rw [Memory.view, h, Option.map_some]

theorem freePage_spec (h : Inv s got) (hp : p ∈ userPages) (hl : s.lookup (4096 * p) = some e) :
    freePage s (pteAddr e) =
      .ok (s.setCount (mapNr (pteAddr e)) (s.memMap (mapNr (pteAddr e)) - 1)) := by
  obtain ⟨hlow, hhigh⟩ := h.range p hp e hl
  rw [freePage, if_neg (Nat.not_lt.mpr hlow), if_neg (Nat.not_lt.mpr hhigh.le),
    if_pos (h.count_ne_zero hp hl)]

theorem freePte_spec (h : I s got) (hp : p ∈ userPages) :
    ∃ s', freePte s (4096 * p) = .ok s' ∧ I s' got ∧
      Set.EqOn s'.view (update s.view p none) userPages := by
  have hinv := Kept.inv h
  cases hpres : present (s.leaf (4096 * p)) with
  | false =>
    refine ⟨s, freePte_absent hpres, h, ?_⟩
    rw [update_view_self (view_none_of_absent hpres)]
    exact Set.eqOn_refl _ _
  | true =>
    obtain ⟨t, ht⟩ := table_of_present hpres
    have hl := lookup_eq_some_iff.mpr ⟨rfl, hpres⟩
    refine ⟨_, ?_, Kept.drop h hp hl ht, ?_⟩
    · rw [freePte_present ht hpres, if_pos (hinv.range p hp _ hl).1, freePage_spec hinv hp hl]
      rfl
    · have hview := view_setPte (w := 0) hinv.wf hinv.apart hp ht nofun
      exact hview

theorem freeLoop_spec (h : I s got) (hp : ∀ k < n, p + k ∈ userPages) :
    ∃ s', freeLoop n s (4096 * p) = .ok s' ∧ I s' got ∧
      ∀ q ∈ userPages, s'.view q = if p ≤ q ∧ q < p + n then none else s.view q := by
  induction n generalizing s p with
  | zero =>
    refine ⟨s, rfl, h, fun q _ => ?_⟩
    rw [if_neg (by omega)]
  | succ n ih =>
    have hp0 : p ∈ userPages := hp 0 (Nat.succ_pos n)
    obtain ⟨s1, hs1, h1, hview1⟩ := freePte_spec h hp0
    obtain ⟨s2, hs2, h2, hview2⟩ := ih (p := p + 1) h1 fun k hk => by
      have := hp (k + 1) (by omega)
      rwa [show p + 1 + k = p + (k + 1) by omega]
    refine ⟨s2, ?_, h2, fun q hq => ?_⟩
    · rw [freeLoop, hs1]
      exact hs2
    rw [hview2 q hq, hview1 hq]
    by_cases hqp : q = p
    · rw [if_neg (by omega), if_pos (by omega), hqp, update_self]
    · rw [update_of_ne hqp]
      by_cases hin : p + 1 ≤ q ∧ q < p + 1 + n
      · rw [if_pos hin, if_pos (by omega)]
      · rw [if_neg hin, if_neg (by omega)]

theorem readOnly_none_iff : readOnly v = none ↔ v = none :=
  Option.map_eq_none_iff

def shared (v : Nat → Option (Word × (Fin 512 → Word))) (p q : Nat) :
    Nat → Option (Word × (Fin 512 → Word)) :=
  update (update v q (readOnly (v p))) p (readOnly (v p))

theorem shared_none (hp : s.view p = none) (hq : s.view q = none) : shared s.view p q = s.view := by
  have hro : readOnly (s.view p) = none := readOnly_none_iff.mpr hp
  rw [shared, hro, update_view_self hq, update_view_self hp]

theorem share_view {u : Nat} (h : Inv s got) (hp : p ∈ userPages) (hq : q ∈ userPages)
    (hl : s.lookup (4096 * p) = some e) (ht : s.tableAt (path (4096 * p)) = some t)
    (hu : s.tableAt (path (4096 * q)) = some u) :
    Set.EqOn ((s.store u (ptIndex (4096 * q)) (e &&& ~~~pageWrite)).store t (ptIndex (4096 * p))
      (e &&& ~~~pageWrite)).view (shared s.view p q) userPages := by
  have hpres : present (e &&& ~~~pageWrite) = true := by
    simpa using (lookup_eq_some_iff.mp hl).2
  have hdata : present (e &&& ~~~pageWrite) = true → ¬s.IsTable (pteAddr (e &&& ~~~pageWrite)) :=
    fun _ => by simpa using h.not_isTable hp hl
  have hwf1 := h.wf.setPte hu (e &&& ~~~pageWrite)
  have hwalk := tableAt_setPte h.wf.tree hu (e &&& ~~~pageWrite)
  have hview1 := view_setPte h.wf h.apart hq hu hdata
  have hview2 := view_setPte hwf1 (h.apart.setPte h.wf hq hu hdata) hp
    ((hwalk _ (by simp [path])).trans ht) fun hw => (isTable_congr hwalk _).not.mpr (hdata hw)
  have hshared : readOnly (s.view p) = some (e &&& ~~~pageWrite, s.mem (pteAddr e)) := by
    rw [view_of_lookup hl]
    rfl
  have hne : pteAddr e ≠ u := fun heq => h.not_isTable hp hl (heq ▸ isTable_of_path hu)
  intro r hr
  rw [hview2 hr, shared, hshared, if_pos hpres]
  by_cases hrp : r = p
  · subst hrp
    simp [hne]
  · rw [update_of_ne hrp, update_of_ne hrp, hview1 hr, if_pos hpres, pteAddr_clear]

theorem copyPte_spec (h : I s got) (hp : p ∈ userPages) (hq : q ∈ userPages)
    (hnone : s.view q = none) (hcol : colour q = colour p) :
    ∃ r s', copyPte s (4096 * p) (4096 * q) = (r, s') ∧ I s' got ∧
      Set.EqOn s'.view (if r then shared s.view p q else s.view) userPages := by
  have hinv := Kept.inv h
  cases hpres : present (s.leaf (4096 * p)) with
  | false =>
    refine ⟨true, s, copyPte_absent hpres, h, ?_⟩
    rw [if_pos rfl, shared_none (view_none_of_absent hpres) hnone]
    exact Set.eqOn_refl _ _
  | true =>
    obtain ⟨r, s1, -, hwf, hext, hcopy⟩ := copyPte_present (b := 4096 * q) hinv.wf hpres
    have h1 := Kept.grow h hwf hext
    have hinv1 := Kept.inv h1
    have hview1 := hinv.view_extends hwf hext
    rcases hcopy with ⟨-, hs⟩ | ⟨t, u, ht, hu, -, hs⟩
    · exact ⟨false, s1, hs, h1, hview1⟩
    have hl : s1.lookup (4096 * p) = some (s.leaf (4096 * p)) :=
      lookup_eq_some_iff.mpr ⟨hext.leaf _, hpres⟩
    have hnone1 : s1.lookup (4096 * q) = none := by
      rw [← view_eq_none_iff, hview1 hq, hnone]
    rw [if_pos (hinv1.range p hp _ hl).1] at hs
    refine ⟨true, _, hs, Kept.share h1 hp hq hl hnone1 ht hu hcol, ?_⟩
    rw [if_pos rfl]
    intro r hr
    rw [show shared s.view p q r = shared s1.view p q r by
      simp only [shared, hview1 hp, update_apply, hview1 hr]]
    exact share_view hinv1 hp hq hl ht hu hr

def copied (v : Nat → Option (Word × (Fin 512 → Word))) (p q m : Nat) :
    Nat → Option (Word × (Fin 512 → Word)) := fun r =>
  if p ≤ r ∧ r < p + m then readOnly (v r)
  else if q ≤ r ∧ r < q + m then readOnly (v (p + (r - q)))
  else v r

theorem copied_succ {v v' : Nat → Option (Word × (Fin 512 → Word))} {m r : Nat}
    (hdisj : p + (n + 1) ≤ q ∨ q + (n + 1) ≤ p) (hm : m ≤ n)
    (hv : ∀ r ∈ userPages, v' r = shared v p q r) (hp : ∀ k < n, p + 1 + k ∈ userPages)
    (hr : r ∈ userPages) : copied v' (p + 1) (q + 1) m r = copied v p q (m + 1) r := by
  have hkeep : ∀ r ∈ userPages, r ≠ p → r ≠ q → v' r = v r := fun r hr hrp hrq => by
    rw [hv r hr, shared, update_of_ne hrp, update_of_ne hrq]
  unfold copied
  by_cases hrp : r = p
  · rw [if_neg (by omega), if_neg (by omega), if_pos (by omega), hv r hr, hrp, shared, update_self]
  by_cases hrq : r = q
  · rw [if_neg (by omega), if_neg (by omega), if_neg (by omega), if_pos (by omega), hv r hr,
      shared, update_of_ne hrp, hrq, update_self, Nat.sub_self, Nat.add_zero]
  by_cases hin : p + 1 ≤ r ∧ r < p + 1 + m
  · rw [if_pos hin, if_pos (by omega), hkeep r hr hrp hrq]
  · rw [if_neg hin, if_neg (show ¬(p ≤ r ∧ r < p + (m + 1)) by omega)]
    by_cases hin' : q + 1 ≤ r ∧ r < q + 1 + m
    · have hsrc := hp (r - (q + 1)) (by omega)
      rw [if_pos hin', if_pos (by omega), hkeep _ hsrc (by omega) (by omega),
        show p + 1 + (r - (q + 1)) = p + (r - q) by omega]
    · rw [if_neg hin', if_neg (by omega), hkeep r hr hrp hrq]

theorem forall_next {P : Nat → Prop} (h : ∀ k < n + 1, P (p + k)) : ∀ k < n, P (p + 1 + k) := by
  intro k hk
  rw [Nat.add_assoc, Nat.add_comm 1 k]
  exact h (k + 1) (Nat.succ_lt_succ hk)

theorem copyLoop_spec (h : I s got) (hp : ∀ k < n, p + k ∈ userPages)
    (hq : ∀ k < n, q + k ∈ userPages) (hdisj : p + n ≤ q ∨ q + n ≤ p)
    (hnone : ∀ k < n, s.view (q + k) = none) (hcol : ∀ k < n, colour (q + k) = colour (p + k)) :
    ∃ r s' m, copyLoop n s (4096 * p) (4096 * q) = (r, s') ∧ I s' got ∧ m ≤ n ∧
      (r = true → m = n) ∧ Set.EqOn s'.view (copied s.view p q m) userPages := by
  induction n generalizing s p q with
  | zero =>
    refine ⟨true, s, 0, rfl, h, Nat.le_refl 0, fun _ => rfl, fun r _ => ?_⟩
    rw [copied, if_neg (by omega), if_neg (by omega)]
  | succ n ih =>
    obtain ⟨r1, s1, hs1, h1, hview1⟩ := copyPte_spec (p := p) (q := q) h (hp 0 (by omega))
      (hq 0 (by omega)) (hnone 0 (by omega)) (hcol 0 (by omega))
    cases r1 with
    | false =>
      refine ⟨false, s1, 0, ?_, h1, Nat.zero_le _, nofun, fun r hr => ?_⟩
      · rw [copyLoop, hs1]
      · rw [copied, if_neg (by omega), if_neg (by omega)]
        exact hview1 hr
    | true =>
      have hshared : ∀ r ∈ userPages, s1.view r = shared s.view p q r := fun r hr => hview1 hr
      have hp' := forall_next hp
      have hq' := forall_next hq
      have hkeep : ∀ r ∈ userPages, r ≠ p → r ≠ q → s1.view r = s.view r := fun r hr hrp hrq => by
        rw [hshared r hr, shared, update_of_ne hrp, update_of_ne hrq]
      obtain ⟨r2, s2, m, hs2, h2, hm, hok, hview2⟩ := ih (p := p + 1) (q := q + 1) h1
        hp' hq' (by omega)
        (fun k hk => (hkeep _ (hq' k hk) (by omega) (by omega)).trans
          (forall_next (P := fun r => s.view r = none) hnone k hk))
        (fun k hk => by
          rw [Nat.add_right_comm, Nat.add_right_comm p]
          exact hcol (k + 1) (Nat.succ_lt_succ hk))
      refine ⟨r2, s2, m + 1, ?_, h2, by omega, fun hr => by rw [hok hr], fun r hr => ?_⟩
      · rw [copyLoop, hs1]
        exact hs2
      · rw [hview2 hr]
        exact copied_succ hdisj hm hshared hp' hr

theorem slot_pages {nr size : Nat} (hnr : 0 < nr ∧ nr < nrTasks) (hsize : size ≤ 0x4000000) :
    slotBase nr = 4096 * (nr * slotPages) ∧ roundUp size / 0x1000 ≤ slotPages ∧
      ∀ k < roundUp size / 0x1000, nr * slotPages + k ∈ userPages := by
  have hpages : roundUp size / 0x1000 ≤ slotPages := by
    unfold roundUp slotPages
    omega
  refine ⟨by unfold slotBase slotPages; omega, hpages, fun k hk => ?_⟩
  rw [mem_userPages]
  unfold slotPages nrTasks at *
  omega

theorem freePageTables_spec {nr size : Nat} (h : I s got) (hnr : 0 < nr ∧ nr < nrTasks)
    (hsize : size ≤ 0x4000000) :
    ∃ s', freePageTables s (slotBase nr) size = .ok s' ∧ I s' got ∧
      ∀ q ∈ userPages, s'.view q =
        if nr * slotPages ≤ q ∧ q < nr * slotPages + roundUp size / 0x1000 then none
        else s.view q := by
  obtain ⟨hbase, -, hpages⟩ := slot_pages hnr hsize
  obtain ⟨s', hs, hinv, hview⟩ := freeLoop_spec h hpages
  refine ⟨s', ?_, hinv, hview⟩
  rw [freePageTables, if_neg (by unfold slotBase; omega), if_neg (by unfold slotBase; omega),
    if_neg (by unfold slotBase roundUp nrTasks at *; omega), hbase]
  exact hs

theorem copyPageTables_spec {src dst size : Nat} (h : I s got) (hsrc : 0 < src ∧ src < nrTasks)
    (hdst : 0 < dst ∧ dst < nrTasks) (hne : src ≠ dst) (hsize : size ≤ 0x4000000)
    (hempty : ∀ k < slotPages, s.view (dst * slotPages + k) = none) :
    ∃ r s' m, copyPageTables s (slotBase src) (slotBase dst) size = .ok (r, s') ∧ I s' got ∧
      m ≤ roundUp size / 0x1000 ∧ (r = true → m = roundUp size / 0x1000) ∧
      Set.EqOn s'.view (copied s.view (src * slotPages) (dst * slotPages) m) userPages := by
  obtain ⟨hsbase, hle, hspages⟩ := slot_pages hsrc hsize
  obtain ⟨hdbase, -, hdpages⟩ := slot_pages hdst hsize
  obtain ⟨r, s', m, hs, hrest⟩ := copyLoop_spec h hspages hdpages
    (by unfold slotPages at *; omega) (fun k hk => hempty k (by omega))
    (fun k hk => by unfold colour slotPages; omega)
  refine ⟨r, s', m, ?_, hrest⟩
  rw [copyPageTables, if_neg (by unfold slotBase; omega), hsbase, hdbase, hs]

theorem getPte_page (s : Memory) (a : Nat) (create : Bool) :
    getPte s a create = getPte s (4096 * (a / 4096)) create := by
  obtain ⟨hpath, hindex⟩ := path_page a
  simp only [path, List.cons.injEq, and_true] at hpath
  rw [getPte, getPte, getPt, getPt, getPd, getPd, getPdpt, getPdpt, hpath.1, hpath.2.1, hpath.2.2,
    hindex]

theorem putPage_spec (h : I s got) (hp : a / 4096 ∈ userPages) (hnone : s.view (a / 4096) = none)
    (hpage : page ∈ got) (hgot : ∀ g, g ∈ got' ↔ g ∈ got ∧ g ≠ page) :
    (∃ s', putPage s page a = (none, s') ∧ (getPte s a true).1 = none ∧ I s' got ∧
        Set.EqOn s'.view s.view userPages) ∨
      ∃ s', putPage s page a = (some page, s') ∧ I s' got' ∧
        Set.EqOn s'.view (update s.view (a / 4096) (some (entry page, s.mem page))) userPages := by
  have hinv := Kept.inv h
  rw [putPage, getPte_page]
  cases hg : getPte s (4096 * (a / 4096)) true with
  | mk r s1 =>
    obtain ⟨hwf, hext, hr⟩ := getPte_create hinv.wf hg
    have h1 := Kept.grow h hwf hext
    have hinv1 := Kept.inv h1
    have hview1 := hinv.view_extends hwf hext
    cases r with
    | none => exact .inl ⟨s1, rfl, rfl, h1, hview1⟩
    | some x =>
      obtain ⟨t, j⟩ := x
      obtain ⟨ht, rfl⟩ := hr t j rfl
      have hnone1 : s1.lookup (4096 * (a / 4096)) = none := by
        rw [← view_eq_none_iff, hview1 hp, hnone]
      obtain ⟨k, hk, rfl⟩ := hinv.taken page hpage
      have hnt : ¬s1.IsTable (lowMem + k * 4096) := fun ht => hinv1.valid.disjoint k ht hpage
      refine .inr ⟨_, ?_, Kept.install h1 hp ht hnone1 hpage hgot, fun q hq => ?_⟩
      · rw [pointer, if_neg (by unfold lowMem; omega)]
      · have haddr := pteAddr_entry_page hk
        rw [view_setPte hwf hinv1.apart hp ht (fun _ => haddr.symm ▸ hnt) hq,
          if_pos (present_entry _), haddr, hext.mem _ hnt]
        simp only [update_apply, hview1 hq]

theorem mem_tail_iff {g : Nat} (hnew : page ∉ got) : g ∈ got ↔ g ∈ page :: got ∧ g ≠ page := by
  rw [List.mem_cons]
  constructor
  · exact fun hg => ⟨.inr hg, ne_of_mem_of_not_mem hg hnew⟩
  · exact fun hg => hg.1.resolve_left hg.2

theorem doNoPage_spec (h : Inv s got) (hp : a / 4096 ∈ userPages)
    (hnone : s.view (a / 4096) = none) :
    (∃ s', doNoPage s a = .exit s' ∧ Inv s' got ∧ Set.EqOn s'.view s.view userPages) ∨
      ∃ s' page, doNoPage s a = .ret s' ∧ Inv s' got ∧
        Set.EqOn s'.view (update s.view (a / 4096) (some (entry page, fun _ => 0))) userPages := by
  rw [doNoPage]
  cases hg : getFreePage s with
  | none => exact .inl ⟨s, rfl, h, Set.eqOn_refl _ _⟩
  | some x =>
    obtain ⟨page, s1⟩ := x
    obtain ⟨h1, hnew⟩ := h.alloc hg
    have hview1 := h.view_getFreePage hg
    have hzero : s1.mem page = fun _ => 0 := by
      obtain ⟨k, -, -, rfl, rfl⟩ := getFreePage_spec hg
      simp
    rcases putPage_spec h1 hp ((hview1 hp).trans hnone) List.mem_cons_self
      (fun g => mem_tail_iff hnew) with ⟨s2, hs2, -, h2, hview2⟩ | ⟨s2, hs2, h2, hview2⟩
    · refine .inl ⟨s2, by simp only [hs2], h2.forget fun g hgot => List.mem_cons_of_mem _ hgot, ?_⟩
      exact hview2.trans hview1
    · refine .inr ⟨s2, page, by simp only [hs2], h2, fun q hq => ?_⟩
      rw [hview2 hq, hzero]
      simp only [update_apply, hview1 hq]

@[simp] theorem store_store (s : Memory) (t : Nat) (i : Fin 512) (v w : Word) :
    (s.store t i v).store t i w = s.store t i w := by
  simp [Memory.store]

/-- The words that `un_wp_page` keeps; without a frame it copies page 0. -/
def wordsOf (s : Memory) (p : Nat) : Fin 512 → Word := ((s.view p).map Prod.snd).getD (s.mem 0)

/-- The entry of a page gives its page a copy of the frame that it had. -/
structure Unshared (s s' : Memory) (got : List Nat) (p : Nat) : Prop where
  inv : Inv s' got
  view : ∃ e, writable e = true ∧
    Set.EqOn s'.view (update s.view p (some (e, wordsOf s p))) userPages

theorem copy_unshared (h : I s1 (page :: got)) (hnew : page ∉ got)
    (hp : p ∈ userPages) (ht : s1.tableAt (path (4096 * p)) = some t)
    (hnone : s1.lookup (4096 * p) = none) (words : Fin 512 → Word) :
    I ((s1.store t (ptIndex (4096 * p)) (entry page)).setPage page words) got ∧
      Set.EqOn ((s1.store t (ptIndex (4096 * p)) (entry page)).setPage page words).view
        (update s1.view p (some (entry page, words))) userPages := by
  have hinv := Kept.inv h
  obtain ⟨k, hk, rfl⟩ := hinv.taken page List.mem_cons_self
  have haddr := pteAddr_entry_page hk
  have hnt : ¬s1.IsTable (lowMem + k * 4096) := fun ht =>
    hinv.valid.disjoint k ht List.mem_cons_self
  have h2 := Kept.install h hp ht hnone List.mem_cons_self fun g => mem_tail_iff hnew
  have hnt2 : ¬(s1.store t (ptIndex (4096 * p)) (entry (lowMem + k * 4096))).IsTable
      (lowMem + k * 4096) := (isTable_congr (tableAt_setPte hinv.wf.tree ht _) _).not.mpr hnt
  have hview := view_setPte hinv.wf hinv.apart hp ht (fun _ => haddr.symm ▸ hnt)
  refine ⟨Kept.setPage h2 hnt2, fun q hq => ?_⟩
  by_cases hqp : q = p
  · subst hqp
    rw [update_self, view_eq_some_iff]
    refine ⟨?_, by simp [haddr]⟩
    rw [lookup_congr (leaf_setPage hnt2 _), lookup_store hinv.wf hp ht hp, if_pos rfl,
      if_pos (present_entry _)]
  · rw [update_of_ne hqp, view_setPage hnt2 fun e he => ?_, hview hq, update_of_ne hqp]
    -- the new page was mapped nowhere
    intro heq
    rw [lookup_store hinv.wf hp ht hq, if_neg hqp] at he
    have hfree := (hinv.valid.not_reserved hq (frame_of_lookup hq he)).2
    rw [heq, mapNr_page] at hfree
    exact hfree List.mem_cons_self

theorem wordsOf_of_lookup (hl : s.lookup (4096 * p) = some e) :
    wordsOf s p = s.mem (pteAddr e) := by
  rw [wordsOf, view_of_lookup hl]
  rfl

theorem unWpPage_copy (h : I s got) (hp : p ∈ userPages) (ht : s.tableAt (path (4096 * p)) = some t)
    (hl : s.lookup (4096 * p) = some e) (hg : getFreePage s = some (page, s1)) :
    ∃ s', s' = (((s1.setCount (mapNr (pteAddr e)) (s1.memMap (mapNr (pteAddr e)) - 1)).store t
      (ptIndex (4096 * p)) (entry page)).setPage page (s.mem (pteAddr e))) ∧ I s' got ∧
      Unshared s s' got p := by
  have hinv := Kept.inv h
  have hnew := (hinv.alloc hg).2
  have h1 := Kept.alloc h hg
  have hinv1 := Kept.inv h1
  have hview1 := hinv.view_getFreePage hg
  obtain ⟨-, -, hwalk, hleaf⟩ := hinv.wf.alloc hg
  have ht1 := (hwalk _ (by simp [path])).trans ht
  have hl1 := (lookup_congr (hleaf (4096 * p))).trans hl
  have h2 := Kept.drop h1 hp hl1 ht1
  have hwf1 := hinv1.wf_setCount hp hl1 (s1.memMap (mapNr (pteAddr e)) - 1)
  have hnone2 : ((s1.setCount (mapNr (pteAddr e)) (s1.memMap (mapNr (pteAddr e)) - 1)).store t
      (ptIndex (4096 * p)) 0).lookup (4096 * p) = none := by
    rw [lookup_store hwf1 hp ht1 hp, if_pos rfl]
    rfl
  have ht2 := (tableAt_setPte hwf1.tree ht1 0 (path (4096 * p)) (by simp [path])).trans ht1
  obtain ⟨h3, hview3⟩ := copy_unshared h2 hnew hp ht2 hnone2 (s.mem (pteAddr e))
  have hview2 := view_setPte (w := 0) hinv1.wf hinv1.apart hp ht1 (by rintro ⟨⟩)
  rw [store_store] at h3 hview3
  refine ⟨_, rfl, h3, Kept.inv h3, entry page, writable_entry _, fun q hq => ?_⟩
  rw [hview3 hq, wordsOf_of_lookup hl]
  by_cases hqp : q = p
  · rw [hqp, update_self, update_self]
  · rw [update_of_ne hqp, update_of_ne hqp]
    exact (hview2 hq).trans ((update_of_ne hqp _ _).trans (hview1 hq))

theorem unWpPage_absent (h : I s got) (hp : p ∈ userPages)
    (ht : s.tableAt (path (4096 * p)) = some t) (hnone : s.lookup (4096 * p) = none)
    (hg : getFreePage s = some (page, s1)) :
    ∃ s', s' = (s1.store t (ptIndex (4096 * p)) (entry page)).setPage page (s.mem 0) ∧ I s' got ∧
      Unshared s s' got p := by
  have hinv := Kept.inv h
  have hnew := (hinv.alloc hg).2
  have h1 := Kept.alloc h hg
  have hview1 := hinv.view_getFreePage hg
  obtain ⟨-, -, hwalk, hleaf⟩ := hinv.wf.alloc hg
  have ht1 := (hwalk _ (by simp [path])).trans ht
  have hnone1 := (lookup_congr (hleaf (4096 * p))).trans hnone
  obtain ⟨h3, hview3⟩ := copy_unshared h1 hnew hp ht1 hnone1 (s.mem 0)
  have hwords : wordsOf s p = s.mem 0 := by
    rw [wordsOf, view_eq_none_iff.mpr hnone]
    rfl
  refine ⟨_, rfl, h3, Kept.inv h3, entry page, writable_entry _, fun q hq => ?_⟩
  rw [hview3 hq, hwords]
  simp only [update_apply, hview1 hq]

theorem unWpPage_spec (h : I s got) (hp : p ∈ userPages)
    (ht : s.tableAt (path (4096 * p)) = some t) :
    unWpPage s t (ptIndex (4096 * p)) = .exit s ∨
      ∃ s', unWpPage s t (ptIndex (4096 * p)) = .ret s' ∧ I s' got ∧ Unshared s s' got p := by
  have hinv := Kept.inv h
  have hleaf := leaf_of_table ht
  have htable : s.IsTable t := isTable_of_path ht
  unfold unWpPage
  rw [← hleaf]
  cases hl : s.lookup (4096 * p) with
  | none =>
    have hzero : s.leaf (4096 * p) = 0 := hinv.absent p hp hl
    rw [hzero, show pteAddr 0 = 0 by decide, if_neg fun hand => absurd hand.1 (by decide)]
    cases hg : getFreePage s with
    | none => exact .inl rfl
    | some x =>
      obtain ⟨page, s1⟩ := x
      have hmem : ((s1.store t (ptIndex (4096 * p)) (entry page))).mem 0 = s.mem 0 := by
        obtain ⟨k, -, -, rfl, rfl⟩ := getFreePage_spec hg
        have hne : (0 : Nat) ≠ lowMem + k * 4096 := by
          unfold lowMem
          omega
        simp [(isTable_ne_zero htable).symm, hne]
      simp only [show ¬lowMem ≤ 0 by decide, if_false]
      obtain ⟨s', hs', hun⟩ := unWpPage_absent h hp ht hl hg
      exact .inr ⟨s', by rw [hmem, hs'], hun⟩
  | some e =>
    obtain ⟨rfl, hpres⟩ := lookup_eq_some_iff.mp hl
    have hlow := (hinv.range p hp _ hl).1
    have hnt := hinv.not_isTable hp hl
    by_cases hone : s.memMap (mapNr (pteAddr (s.leaf (4096 * p)))) = 1
    · rw [if_pos ⟨hlow, hone⟩]
      have h1 := Kept.permit h hp hl ht hone
      refine .inr ⟨_, rfl, h1, Kept.inv h1, _, writable_set (s.leaf (4096 * p)), ?_⟩
      have hview := view_setPte (w := s.leaf (4096 * p) ||| pageWrite) hinv.wf hinv.apart hp ht
        (fun _ => by simpa using hnt)
      rw [if_pos (by simpa using hpres), pteAddr_set, ← wordsOf_of_lookup hl] at hview
      exact hview
    · rw [if_neg (fun hand => hone hand.2)]
      cases hg : getFreePage s with
      | none => exact .inl rfl
      | some x =>
        obtain ⟨page, s1⟩ := x
        have hframe := hinv.frame_ne_page hg hp hl
        have hne : pteAddr (s.leaf (4096 * p)) ≠ t := fun heq => hnt (heq ▸ htable)
        have hmem : s1.mem (pteAddr (s.leaf (4096 * p))) = s.mem (pteAddr (s.leaf (4096 * p))) := by
          obtain ⟨k, -, -, rfl, rfl⟩ := getFreePage_spec hg
          simp [hframe]
        simp only [if_pos hlow, Memory.store_mem, update_of_ne hne, Memory.setCount_mem]
        obtain ⟨s', hs', hun⟩ := unWpPage_copy h hp ht hl hg
        exact .inr ⟨s', by rw [hmem, hs'], hun⟩

theorem doWpPage_spec (h : I s got) (hp : a / 4096 ∈ userPages) :
    (doWpPage s a = .ret s ∧ s.view (a / 4096) = none) ∨ doWpPage s a = .exit s ∨
      ∃ s', doWpPage s a = .ret s' ∧ I s' got ∧ Unshared s s' got (a / 4096) := by
  rw [doWpPage, getPte_page, getPte_find]
  cases ht : s.tableAt (path (4096 * (a / 4096))) with
  | none => exact .inl ⟨rfl, view_none_of_table ht⟩
  | some t => exact .inr (unWpPage_spec h hp ht)

theorem writeVerify_spec (h : I s got) (hp : a / 4096 ∈ userPages) :
    writeVerify s a = .ret s ∨ writeVerify s a = .exit s ∨
      ∃ s', writeVerify s a = .ret s' ∧ I s' got ∧ Unshared s s' got (a / 4096) ∧
        s.view (a / 4096) ≠ none := by
  rw [writeVerify, getPte_page, getPte_find]
  cases ht : s.tableAt (path (4096 * (a / 4096))) with
  | none => exact .inl rfl
  | some t =>
    simp only [Option.map_some]
    split
    · rename_i hbits
      rcases unWpPage_spec h hp ht with hexit | ⟨s', hret, hI, hun⟩
      · exact .inr (.inl hexit)
      refine .inr (.inr ⟨s', hret, hI, hun, ?_⟩)
      have hpres : present (s.mem t (ptIndex (4096 * (a / 4096)))) = true := by
        rw [present, show pagePresent = (pagePresent ||| pageWrite) &&& pagePresent by decide,
          ← BitVec.and_assoc, hbits]
        decide
      rw [view_of_lookup (lookup_of_present ht hpres)]
      exact Option.some_ne_none _
    · exact .inl rfl

end Linux001.Mm
