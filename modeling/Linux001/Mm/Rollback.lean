import Linux001.Mm.PageFault

/-! A `copy_mem` that runs out of memory: `free_page_tables` takes back what `copy_page_tables` has
shared until it stopped. For slot 63 the end of the range overflows and nothing is taken back. -/

namespace Linux001.Mm

open Function ProofKit

variable {s s' s1 : Memory} {a b c n m : Nat} {u : Memory}

/-! ### The frames of a range -/

def frameOf (e : Word) : Option Nat :=
  if present e ∧ lowMem ≤ pteAddr e then some (mapNr (pteAddr e)) else none

def frames (s : Memory) : (a n : Nat) → List Nat
  | _, 0 => []
  | a, n + 1 => (frameOf (s.leaf a)).toList ++ frames s (a + 0x1000) n

theorem frameOf_absent {e : Word} (h : present e = false) : frameOf e = none := by
  rw [frameOf, if_neg (by simp [h])]

@[simp] theorem frameOf_readOnly (e : Word) : frameOf (readOnlyEntry e) = frameOf e := by
  rw [frameOf, frameOf, readOnlyEntry, present_clear, pteAddr_clear]

theorem frames_congr (h : ∀ i < n, frameOf (s'.leaf (b + 0x1000 * i)) =
    frameOf (s.leaf (a + 0x1000 * i))) : frames s' b n = frames s a n := by
  induction n generalizing a b with
  | zero => rfl
  | succ n ih =>
    have hfirst : frameOf (s'.leaf b) = frameOf (s.leaf a) := h 0 (Nat.succ_pos n)
    rw [frames, frames, hfirst, ih]
    intro i hi
    rw [page_succ, page_succ]
    exact h (i + 1) (Nat.succ_lt_succ hi)

theorem frames_add (s : Memory) (a n m : Nat) :
    frames s a (n + m) = frames s a n ++ frames s (a + 0x1000 * n) m := by
  induction n generalizing a with
  | zero => simp [frames]
  | succ n ih =>
    rw [Nat.succ_add, frames, frames, ih, page_succ, List.append_assoc]

theorem frames_absent (h : ∀ i < n, present (s.leaf (a + 0x1000 * i)) = false) :
    frames s a n = [] := by
  induction n generalizing a with
  | zero => rfl
  | succ n ih =>
    obtain ⟨hfirst, hrest⟩ := absent_succ h
    rw [frames, frameOf_absent hfirst, ih hrest]
    rfl

def tally (l : List Nat) (k : Nat) : UInt16 := UInt16.ofNat (l.count k)

@[simp] theorem tally_nil (k : Nat) : tally [] k = 0 := rfl

@[simp] theorem tally_append (l l' : List Nat) (k : Nat) :
    tally (l ++ l') k = tally l k + tally l' k := by
  rw [tally, tally, tally, List.count_append, UInt16.ofNat_add]

@[simp] theorem tally_singleton (i k : Nat) : tally [i] k = if i = k then 1 else 0 := by
  rw [tally, List.count_singleton]
  by_cases h : i = k
  · simp [h]
  · simp [h]

/-! ### What the functions do to the counts -/

/-- `s'` has the tables of `s`, and lower counts for the entries of `l`. -/
structure Lowered (s s' : Memory) (l : List Nat) : Prop where
  isTable : ∀ t, s'.IsTable t ↔ s.IsTable t
  count : ∀ k, s'.memMap k = s.memMap k - tally l k

theorem freePage_lowered (h : freePage s a = .ok s') (hlow : lowMem ≤ a) :
    Lowered s s' [mapNr a] := by
  unfold freePage at h
  rw [if_neg (Nat.not_lt.mpr hlow)] at h
  split at h
  · cases h
  split at h
  · cases h
    refine ⟨fun t => Iff.rfl, fun k => ?_⟩
    by_cases hk : k = mapNr a
    · simp [hk]
    · simp [hk, Ne.symm hk]
  · cases h

theorem freePte_lowered (h : s.Tree) (hf : freePte s a = .ok s') :
    Lowered s s' (frameOf (s.leaf a)).toList := by
  cases hpres : present (s.leaf a) with
  | false =>
    rw [freePte_absent hpres] at hf
    cases hf
    rw [frameOf_absent hpres]
    exact ⟨fun t => Iff.rfl, fun k => by simp⟩
  | true =>
    obtain ⟨t, ht⟩ := table_of_present hpres
    obtain ⟨u, hfree, htree, htu, -, rfl⟩ := freePte_store h ht hpres hf
    have hlowered : Lowered s u (frameOf (s.leaf a)).toList := by
      rw [frameOf]
      split at hfree
      · rename_i hlow
        rw [if_pos ⟨hpres, hlow⟩]
        exact freePage_lowered hfree hlow
      · rename_i hlow
        cases hfree
        rw [if_neg fun hand => hlow hand.2]
        exact ⟨fun t => Iff.rfl, fun k => by simp⟩
    -- the entry is no part of the tree
    exact ⟨fun x => (isTable_congr (tableAt_setPte htree htu 0) x).trans (hlowered.isTable x),
      hlowered.count⟩

theorem freeLoop_lowered (h : s.Tree) (hn : n ≤ 2 ^ 36) (hf : freeLoop n s a = .ok s') :
    Lowered s s' (frames s a n) := by
  induction n generalizing s a with
  | zero =>
    cases hf
    exact ⟨fun t => Iff.rfl, fun k => by simp [frames]⟩
  | succ n ih =>
    obtain ⟨u, hu, hrest⟩ := except_bind_eq_ok.mp hf
    obtain ⟨htree, hleaf⟩ := freePte_leaf h hu
    have hfirst := freePte_lowered h hu
    have hlater := ih htree (by omega) hrest
    have hsame : frames u (a + 0x1000) n = frames s (a + 0x1000) n := by
      apply frames_congr
      intro i hi
      rw [hleaf, if_neg]
      rintro ⟨hpage, -⟩
      rw [page_succ] at hpage
      have := pageNr_add_inj (a := a) (i := i + 1) (j := 0) (by omega) (by omega) hpage
      omega
    refine ⟨fun t => (hlater.isTable t).trans (hfirst.isTable t), fun k => ?_⟩
    rw [hlater.count, hfirst.count, frames, tally_append]
    grind

/-- `s'` may have more tables than `s`, and higher counts for `l`. -/
structure Raised (s s' : Memory) (l : List Nat) : Prop where
  isTable : ∀ t, s.IsTable t → s'.IsTable t
  count : ∀ k, (s'.IsTable (lowMem + k * 4096) → s.IsTable (lowMem + k * 4096)) →
    s'.memMap k = s.memMap k + tally l k

theorem Raised.refl (s : Memory) : Raised s s [] := ⟨fun _ h => h, fun k _ => by simp⟩

theorem Raised.trans {l l' : List Nat} (h : Raised s s1 l) (h' : Raised s1 s' l') :
    Raised s s' (l ++ l') where
  isTable t ht := h'.isTable t (h.isTable t ht)
  count k hk := by
    rw [h'.count k fun ht => h.isTable _ (hk ht), h.count k fun ht => hk (h'.isTable _ ht),
      tally_append,
      UInt16.add_assoc]

theorem Extends.raised (h : Extends s s') : Raised s s' [] :=
  ⟨h.isTable, fun k hk => by rw [h.count k hk, tally_nil, UInt16.add_zero]⟩

theorem Raised.setPte {t : Nat} {w : Word} {l : List Nat} (h : Raised s s' l) (htree : s'.Tree)
    (ht : s'.tableAt (path a) = some t) : Raised s (s'.store t (ptIndex a) w) l where
  isTable u hu := (isTable_congr (tableAt_setPte htree ht w) u).mpr (h.isTable u hu)
  count k hk := h.count k fun hu => hk ((isTable_congr (tableAt_setPte htree ht w) _).mpr hu)

theorem raised_setCount (s : Memory) (k : Nat) : Raised s (s.setCount k (s.memMap k + 1)) [k] where
  isTable _ h := h
  count j _ := by
    by_cases hj : j = k
    · simp [hj]
    · simp [hj, Ne.symm hj]

theorem copyPte_raised (h : Wf s) (hc : copyPte s a b = (true, s')) :
    Raised s s' (frameOf (s.leaf a)).toList := by
  cases hpres : present (s.leaf a) with
  | false =>
    rw [copyPte_absent hpres] at hc
    cases hc
    rw [frameOf_absent hpres]
    exact .refl s
  | true =>
    obtain ⟨r, u, -, hwf, hext, ⟨-, hs⟩ | ⟨ft, tt, htu, htt, -, hs⟩⟩ :=
      copyPte_present (b := b) h hpres
    · rw [hs] at hc
      cases hc
    rw [hs] at hc
    have hwf2 := hwf.setPte htt (s.leaf a &&& ~~~pageWrite)
    have hraised2 := hext.raised.setPte (w := s.leaf a &&& ~~~pageWrite) hwf.tree htt
    rw [frameOf]
    split at hc
    · rename_i hlow
      cases hc
      rw [if_pos ⟨hpres, hlow⟩]
      have htu2 := (tableAt_setPte hwf.tree htt (s.leaf a &&& ~~~pageWrite) _
        (by simp [path])).trans htu
      exact (hraised2.setPte hwf2.tree htu2).trans (raised_setCount _ _)
    · rename_i hlow
      cases hc
      rw [if_neg fun hand => hlow hand.2]
      exact hraised2

theorem copyLoop_raised (h : Wf s) (hroom : Roomy n s) (hn : n + 1 < 2 ^ 16)
    (hdisj : NoOverlap a b n) (hc : copyLoop n s a b = (true, s')) :
    Raised s s' (frames s a n) := by
  induction n generalizing s a b with
  | zero =>
    cases hc
    exact .refl _
  | succ n ih =>
    unfold copyLoop at hc
    split at hc
    · cases hc
    rename_i u hu
    have hab : pageNr a ≠ pageNr b := hdisj 0 (Nat.succ_pos n) 0 (Nat.succ_pos n)
    obtain ⟨hwf, hroom', hleaf⟩ := copyPte_leaf h hroom hn hab hu
    have hsame : frames u (a + 0x1000) n = frames s (a + 0x1000) n := by
      apply frames_congr
      intro i hi
      have hne : pageNr (a + 0x1000 * (i + 1)) ≠ pageNr b :=
        hdisj (i + 1) (Nat.succ_lt_succ hi) 0 (Nat.succ_pos n)
      rw [page_succ, hleaf, if_neg hne,
        if_neg (pageNr_later hn hi)]
    have hrest := ih hwf hroom' (by omega) hdisj.next hc
    rw [hsame] at hrest
    exact (copyPte_raised h hu).trans hrest

theorem copyLoop_stops (hc : copyLoop n s a b = (false, s')) :
    ∃ m < n, ∃ u, copyLoop m s a b = (true, u) ∧
      copyPte u (a + 0x1000 * m) (b + 0x1000 * m) = (false, s') := by
  induction n generalizing s a b with
  | zero => cases hc
  | succ n ih =>
    unfold copyLoop at hc
    split at hc
    · rename_i u hu
      cases hc
      exact ⟨0, Nat.succ_pos n, s, rfl, hu⟩
    rename_i u hu
    obtain ⟨m, hm, v, hloop, hstop⟩ := ih hc
    refine ⟨m + 1, Nat.succ_lt_succ hm, v, ?_, ?_⟩
    · rw [copyLoop, hu]
      exact hloop
    · rw [← page_succ, ← page_succ]
      exact hstop

theorem copyPte_false (h : Wf s) (hc : copyPte s a b = (false, s')) :
    Wf s' ∧ Extends s s' ∧ present (s.leaf a) = true ∧
      ∀ n, missing s b = some n → freePages s < n := by
  cases hpres : present (s.leaf a) with
  | false =>
    rw [copyPte_absent hpres] at hc
    cases hc
  | true =>
    obtain ⟨r, u, hcreate, hwf, hext, ⟨rfl, hs⟩ | ⟨ft, tt, -, -, -, hs⟩⟩ :=
      copyPte_present (b := b) h hpres
    · rw [hs] at hc
      cases hc
      refine ⟨hwf, hext, rfl, fun n hn => ?_⟩
      by_contra hle
      have hsome := (getPte_isSome_iff h).mpr ⟨n, hn, Nat.not_lt.mp hle⟩
      rw [hcreate] at hsome
      cases hsome
    · rw [hs] at hc
      cases hc

theorem copyPte_stuck (h : Wf s) (hpres : present (s.leaf a) = true)
    (hstuck : ∀ n, missing s b = some n → freePages s < n) : (copyPte s a b).1 = false := by
  obtain ⟨r, u, hcreate, -, -, ⟨-, hs⟩ | ⟨ft, tt, -, -, rfl, -⟩⟩ := copyPte_present (b := b) h hpres
  · rw [hs]
  · obtain ⟨n, hn, hle⟩ := (getPte_isSome_iff (a := b) h).mp (by rw [hcreate]; rfl)
    exact absurd (hstuck n hn) (Nat.not_lt.mpr hle)

/-! ### The result of `copy_mem` -/

/-- No page of the child is left, counts are as before, and the parent has its pages. -/
structure RolledBack (s s' : Memory) (a b : Nat) : Prop where
  child : ∀ i < slotPages, s'.lookup (b + 0x1000 * i) = none
  count : ∀ k < pagingPages, s'.memMap k = s.memMap k ∨
    (s'.IsTable (lowMem + k * 4096) ∧ ¬s.IsTable (lowMem + k * 4096))
  parent : ∀ i < slotPages, s'.lookup (a + 0x1000 * i) = s.lookup (a + 0x1000 * i) ∨
    s'.lookup (a + 0x1000 * i) = (s.lookup (a + 0x1000 * i)).map readOnlyEntry

/-- There are too few free pages for the tables of the first page to copy. -/
def Stuck (s : Memory) (a b n : Nat) : Prop :=
  ∃ i < n, present (s.leaf (a + 0x1000 * i)) = true ∧
    (∀ j < i, present (s.leaf (a + 0x1000 * j)) = false) ∧
    ∀ t, missing s (b + 0x1000 * i) = some t → freePages s < t

/-- `copy_page_tables` has copied `m` of at most `n` pages. -/
structure Stopped (s s' : Memory) (a b n m : Nat) : Prop where
  tree : s'.Tree
  lt : m < n
  raised : Raised s s' (frames s a m)
  child : ∀ i < m, s'.leaf (b + 0x1000 * i) =
    sharedTo (s.leaf (a + 0x1000 * i)) (s.leaf (b + 0x1000 * i))
  parent : ∀ i < m, s'.leaf (a + 0x1000 * i) = sharedFrom (s.leaf (a + 0x1000 * i))
  other : ∀ c, ¬Covers a m c → ¬Covers b m c → s'.leaf c = s.leaf c
  stuck : Stuck s a b n ↔ ∀ i < m, present (s.leaf (a + 0x1000 * i)) = false

theorem copyLoop_stopped (h : Wf s) (hroom : Roomy n s) (hn : n + 1 < 2 ^ 16)
    (hdisj : NoOverlap a b n) (hc : copyLoop n s a b = (false, s')) :
    ∃ m, Stopped s s' a b n m := by
  obtain ⟨m, hm, u, hloop, hstop⟩ := copyLoop_stops hc
  have hroom' : Roomy m s := fun t ht hlow => by
    have := hroom t ht hlow
    omega
  have hdisj' : NoOverlap a b m := fun i hi j hj => hdisj i (by omega) j (by omega)
  obtain ⟨hwf, hto, hfrom, hother⟩ := copyLoop_leaf h hroom' (by omega) hdisj' hloop
  have hraised := copyLoop_raised h hroom' (by omega) hdisj' hloop
  obtain ⟨hwf', hext, hpres, hmissing⟩ := copyPte_false hwf hstop
  have hfirst : ∀ i, (∀ j < i, present (s.leaf (a + 0x1000 * j)) = false) →
      copyLoop i s a b = (true, s) := fun i hi => copyLoop_absent hi
  refine ⟨m, hwf'.tree, hm, ?_, fun i hi => ?_, fun i hi => ?_, fun c hca hcb => ?_, ?_⟩
  · have := hraised.trans hext.raised
    rwa [List.append_nil] at this
  · rw [hext.leaf, hto i hi]
  · rw [hext.leaf, hfrom i hi]
  · rw [hext.leaf, hother c hca hcb]
  constructor
  · rintro ⟨i, hi, hpresi, hbefore, hstuck⟩
    -- the loop cannot pass the page where it is stuck
    have hmi : m ≤ i := by
      by_contra hlt
      obtain ⟨j, rfl⟩ : ∃ j, m = i + (j + 1) := ⟨m - i - 1, by omega⟩
      have hfail := copyPte_stuck h hpresi hstuck
      rw [copyLoop_add, hfirst i hbefore] at hloop
      dsimp only at hloop
      unfold copyLoop at hloop
      split at hloop
      · cases hloop
      · rename_i v hv
        rw [hv] at hfail
        cases hfail
    exact fun j hj => hbefore j (by omega)
  · intro habs
    obtain rfl : u = s := by
      have := (hfirst m habs).symm.trans hloop
      exact (congrArg Prod.snd this).symm
    exact ⟨m, hm, hpres, habs, hmissing⟩

/-- The ranges at `a` and `b` are disjoint, and the child has no page. -/
structure Vacant (s : Memory) (a b : Nat) : Prop where
  disjoint : ∀ i < slotPages, ∀ j < slotPages, pageNr (a + 0x1000 * i) ≠ pageNr (b + 0x1000 * j)
  empty : ∀ i < slotPages, present (s.leaf (b + 0x1000 * i)) = false

theorem lt_of_covers {i : Nat} (hm : m ≤ slotPages) (hi : i < slotPages)
    (h : Covers a m (a + 0x1000 * i)) : i < m := by
  obtain ⟨k, hk, hpage⟩ := h
  unfold slotPages at *
  have := pageNr_add_inj (by omega) (by omega) hpage
  omega

theorem lookup_sharedFrom (h : s'.leaf c = sharedFrom (s.leaf c)) :
    s'.lookup c = s.lookup c ∨ s'.lookup c = (s.lookup c).map readOnlyEntry := by
  rw [sharedFrom] at h
  split at h
  · rename_i hshared
    right
    rw [lookup_eq_some_iff.mpr ⟨h, (present_clear _).trans hshared.1⟩,
      lookup_eq_some_iff.mpr ⟨rfl, hshared.1⟩]
    rfl
  · exact .inl (lookup_congr h)

section Stopped

variable {i : Nat} (h : Stopped s s' a b n m) (hv : Vacant s a b)
include h hv

theorem Stopped.leaf_child (hi : i < slotPages) :
    s'.leaf (b + 0x1000 * i) =
      if i < m then sharedTo (s.leaf (a + 0x1000 * i)) (s.leaf (b + 0x1000 * i))
      else s.leaf (b + 0x1000 * i) := by
  by_cases him : i < m
  · rw [if_pos him, h.child i him]
  · rw [if_neg him, h.other]
    · rintro ⟨j, hj, hpage⟩
      exact hv.disjoint j (by omega) i hi hpage.symm
    · exact fun hcovers => him (lt_of_covers (by omega) hi hcovers)

theorem Stopped.leaf_parent (hi : i < slotPages) :
    s'.leaf (a + 0x1000 * i) =
      if i < m then sharedFrom (s.leaf (a + 0x1000 * i)) else s.leaf (a + 0x1000 * i) := by
  by_cases him : i < m
  · rw [if_pos him, h.parent i him]
  · rw [if_neg him, h.other]
    · exact fun hcovers => him (lt_of_covers (by omega) hi hcovers)
    · rintro ⟨j, hj, hpage⟩
      exact hv.disjoint i hi j (by omega) hpage

theorem Stopped.lookup_parent (hi : i < slotPages) :
    s'.lookup (a + 0x1000 * i) = s.lookup (a + 0x1000 * i) ∨
      s'.lookup (a + 0x1000 * i) = (s.lookup (a + 0x1000 * i)).map readOnlyEntry := by
  have hleaf := h.leaf_parent hv hi
  split at hleaf
  · exact lookup_sharedFrom hleaf
  · exact .inl (lookup_congr hleaf)

variable (hn : n ≤ slotPages)
include hn

theorem Stopped.frames_eq : frames s' b n = frames s a m := by
  have hm := h.lt
  obtain ⟨j, rfl⟩ : ∃ j, n = m + j := ⟨n - m, by omega⟩
  have hlater : frames s' (b + 0x1000 * m) j = [] := by
    apply frames_absent
    intro i hi
    have hadd : b + 0x1000 * m + 0x1000 * i = b + 0x1000 * (m + i) := by omega
    rw [hadd, h.leaf_child hv (by omega), if_neg (by omega)]
    exact hv.empty _ (by omega)
  rw [frames_add, hlater, List.append_nil]
  apply frames_congr
  intro i hi
  rw [h.child i hi, sharedTo]
  split
  · exact frameOf_readOnly _
  · rename_i habs
    rw [frameOf_absent (hv.empty i (by omega)), frameOf_absent (by simpa using habs)]

theorem Stopped.rolledBack (hf : freeLoop n s' b = .ok s1) : RolledBack s s1 a b := by
  obtain ⟨-, hleaf⟩ := freeLoop_leaf h.tree hf
  have hlowered := freeLoop_lowered h.tree (by unfold slotPages at hn; omega) hf
  rw [h.frames_eq hv hn] at hlowered
  refine ⟨fun i hi => ?_, fun k hk => ?_, fun i hi => ?_⟩
  · rw [lookup_eq_none_iff, hleaf]
    split
    · rfl
    rename_i hkept
    by_contra hpres
    rw [Bool.not_eq_false] at hpres
    have hin : ¬ i < n := fun hin => hkept ⟨⟨i, hin, rfl⟩, hpres⟩
    have hm := h.lt
    rw [h.leaf_child hv hi, if_neg (by omega), hv.empty i hi] at hpres
    cases hpres
  · by_cases hfresh : s'.IsTable (lowMem + k * 4096) → s.IsTable (lowMem + k * 4096)
    · left
      rw [hlowered.count, h.raised.count k hfresh]
      grind
    · right
      rw [hlowered.isTable]
      exact Classical.not_imp.mp hfresh
  · have hsame : s1.leaf (a + 0x1000 * i) = s'.leaf (a + 0x1000 * i) := by
      rw [hleaf, if_neg]
      rintro ⟨⟨j, hj, hpage⟩, -⟩
      exact hv.disjoint i hi j (by omega) hpage
    rw [lookup_congr hsame]
    exact h.lookup_parent hv hi

theorem Stopped.rolledBack_iff : RolledBack s s' a b ↔ Stuck s a b n := by
  have hm := h.lt
  rw [h.stuck]
  constructor
  · intro hrolled i hi
    by_contra hpres
    rw [Bool.not_eq_false] at hpres
    have hnone := lookup_eq_none_iff.mp (hrolled.child i (by omega))
    rw [h.child i hi, sharedTo, if_pos hpres, readOnlyEntry, present_clear, hpres] at hnone
    cases hnone
  · intro habs
    refine ⟨fun i hi => ?_, fun k hk => ?_, fun i hi => h.lookup_parent hv hi⟩
    · rw [lookup_eq_none_iff, h.leaf_child hv hi]
      split
      · rename_i him
        rw [sharedTo, if_neg (by simp [habs i him])]
        exact hv.empty i hi
      · exact hv.empty i hi
    · by_cases hfresh : s'.IsTable (lowMem + k * 4096) → s.IsTable (lowMem + k * 4096)
      · left
        rw [h.raised.count k hfresh, frames_absent habs, tally_nil, UInt16.add_zero]
      · exact .inr (Classical.not_imp.mp hfresh)

end Stopped

section Fork

variable {got : List Nat} {codeLimit dataLimit k nr : Nat} {current p p' : Ldt}

theorem freePageTables_newBase (hnr : UserSlot nr) (hlimit : dataLimit ≤ 0x4000000) :
    freePageTables s (newBase nr).toNat dataLimit =
      if nr = 63 ∧ 0x3E00000 < dataLimit then .ok s
      else freeLoop (roundUp dataLimit / 0x1000) s (newBase nr).toNat := by
  have hpos := hnr.1
  have hlt : nr < 64 := hnr.2
  have hbase := toNat_newBase nr hnr.2
  have halign : (newBase nr).toNat % 0x200000 = 0 := by
    rw [hbase]
    unfold slotBase
    split <;> omega
  have hne : (newBase nr).toNat ≠ 0 := by
    rw [hbase]
    unfold slotBase
    split <;> omega
  rw [freePageTables, if_neg (not_not.mpr halign), if_neg hne]
  refine if_congr ?_ rfl rfl
  rw [hbase]
  unfold slotBase roundUp
  split <;> omega

/-- When `copy_mem` returns `-ENOMEM`, memory is as before if and only if the child is not in slot
63, or no page was shared. -/
theorem copyMem_rolledBack_iff (hinv : Inv s got) (hk : k < nrTasks) (hnr : UserSlot nr)
    (hne : k ≠ nr) (hbase : (getBase (current 2)).toNat = slotBase k)
    (hlimit : dataLimit ≤ 0x4000000)
    (hempty : ∀ i < slotPages, s.lookup ((newBase nr).toNat + 0x1000 * i) = none)
    (hc : copyMem s codeLimit dataLimit current p nr = .ok (false, p', s')) :
    RolledBack s s' (slotBase k) (newBase nr).toNat ↔
      nr ≠ 63 ∨ dataLimit ≤ 0x3E00000 ∨
        Stuck s (slotBase k) (newBase nr).toNat (roundUp dataLimit / 0x1000) := by
  obtain ⟨hpages, -⟩ := pages_of_limit hlimit
  have hn : roundUp dataLimit / 0x1000 + 1 < 2 ^ 16 := by
    unfold slotPages at hpages
    omega
  have hvacant : Vacant s (slotBase k) (newBase nr).toNat :=
    ⟨noOverlap_newBase hk hnr fun _ => hne, fun i hi => lookup_eq_none_iff.mp (hempty i hi)⟩
  obtain ⟨u, hloop, -, hfree⟩ := copyLoop_of_copyMem hc
  dsimp only at hfree
  rw [hbase] at hloop
  obtain ⟨m, hstopped⟩ := copyLoop_stopped hinv.wf (hinv.roomy hn) hn
    (fun i hi j hj => hvacant.disjoint i (by omega) j (by omega)) hloop
  rw [freePageTables_newBase hnr hlimit] at hfree
  split at hfree
  · rename_i hover
    cases hfree
    rw [hstopped.rolledBack_iff hvacant hpages, or_iff_right (not_not.mpr hover.1),
      or_iff_right (Nat.not_le.mpr hover.2)]
  · rename_i hover
    refine iff_of_true (hstopped.rolledBack hvacant hpages hfree) ?_
    omega

end Fork

/-! ### Two pages of slot 1, and few free pages -/

theorem Inv.occupy {got : List Nat} {memMap : Nat → UInt16} (h : Inv s got)
    (hm : ∀ k, s.memMap k ≠ 0 → memMap k = s.memMap k) : Inv { s with memMap } got := by
  have hwf : Wf { s with memMap } := by
    refine ⟨h.wf.tree, fun t ht => ?_⟩
    rcases h.wf.used t ht with hlow | ⟨hhigh, hne⟩
    · exact .inl hlow
    · exact .inr ⟨hhigh, fun hzero => hne ((hm _ hne).symm.trans hzero)⟩
  refine ⟨h.toTidy.congr hwf fun _ => rfl, h.taken, h.valid.occupy rfl rfl rfl fun k hk => ?_⟩
  exact congrArg UInt16.toNat (hm k fun hzero => hk (congrArg UInt16.toNat hzero))

/-- The last page of the first 2MB of slot 1, and the next page. -/
def pageA : Nat := slotBase 1 + 0x1000 * 511
def pageB : Nat := slotBase 1 + 0x1000 * 512

def onePage : Memory :=
  ((bootMemory.setCount 1535 1).setPage 0x7FF000 fun _ => 0).setCount 1534 1
    |>.setPage 0x7FE000 (fun _ => 0)
    |>.store 0x3000 32 (entry 0x7FE000)
    |>.store 0x7FE000 511 (entry 0x7FF000)

/-- And a page fault at `pageB`, which needs another page table. -/
def twoPages : Memory :=
  ((onePage.setCount 1533 1).setPage 0x7FD000 fun _ => 0).setCount 1532 1
    |>.setPage 0x7FC000 (fun _ => 0)
    |>.store 0x3000 33 (entry 0x7FC000)
    |>.store 0x7FC000 0 (entry 0x7FD000)

theorem doNoPage_pageA : doNoPage bootMemory pageA = .ret onePage := rfl

theorem doNoPage_pageB : doNoPage onePage pageB = .ret twoPages := rfl

theorem onePage_inv : Inv onePage [] := by
  have hlegal : Legal ⟨bootMemory, []⟩ (.doNoPage pageA) :=
    ⟨mem_userPages.mpr (by decide), by decide +kernel⟩
  have := step_inv (t := ⟨(doNoPage bootMemory pageA).state, []⟩) bootMemory_booted.inv hlegal rfl
  rwa [doNoPage_pageA] at this

theorem twoPages_inv : Inv twoPages [] := by
  have hlegal : Legal ⟨onePage, []⟩ (.doNoPage pageB) :=
    ⟨mem_userPages.mpr (by decide), by decide +kernel⟩
  have := step_inv (t := ⟨(doNoPage onePage pageB).state, []⟩) onePage_inv hlegal rfl
  rwa [doNoPage_pageB] at this

theorem twoPages_leaf (hle : 0x1000 ≤ pageNr c) (hA : pageNr c ≠ pageNr pageA)
    (hB : pageNr c ≠ pageNr pageB) : twoPages.leaf c = 0 := by
  have hone := doNoPage_leaf bootMemory_booted.wf hA
  have htwo := doNoPage_leaf onePage_inv.wf hB
  have hpage : pageNr c = pageNr (4096 * pageNr c) := by
    unfold pageNr
    omega
  have hboot := bootMemory_booted.leaf_of_le hle (Nat.mod_lt _ (by decide))
  exact htwo.trans (hone.trans ((leaf_congr_pageNr hpage).trans hboot))

/-- Two pages are mapped in slot 1, and the first `n` pages are in use. -/
def scarce (n : Nat) : Memory :=
  { twoPages with
    memMap := fun k => if k < n ∧ twoPages.memMap k = 0 then 1 else twoPages.memMap k }

theorem scarce_inv (n : Nat) : Inv (scarce n) [] :=
  twoPages_inv.occupy fun _ hk => if_neg fun hand => hk hand.2

theorem scarce_leaf (n : Nat) (hle : 0x1000 ≤ pageNr c) (hA : pageNr c ≠ pageNr pageA)
    (hB : pageNr c ≠ pageNr pageB) : (scarce n).leaf c = 0 := twoPages_leaf hle hA hB

theorem copyLoop_scarce {j : Nat} (hA : copyPte (scarce n) pageA (b + 0x1000 * 511) = (true, u))
    (hB : (copyPte u pageB (b + 0x1000 * 512)).1 = false) :
    copyLoop (511 + (j + 2)) (scarce n) (slotBase 1) b =
      (false, (copyPte u pageB (b + 0x1000 * 512)).2) := by
  have habs : ∀ i < 511, present ((scarce n).leaf (slotBase 1 + 0x1000 * i)) = false := by
    intro i hi
    have hpage : pageNr (slotBase 1 + 0x1000 * i) = 0x4000 + i :=
      pageNr_slotBase (k := 1) (by decide) (by unfold slotPages; omega)
    rw [scarce_leaf]
    · rfl
    · omega
    · rw [hpage, show pageNr pageA = 0x41FF by decide]
      omega
    · rw [hpage, show pageNr pageB = 0x4200 by decide]
      omega
  have hnext : ∀ x, x + 0x1000 * 511 + 0x1000 = x + 0x1000 * 512 := fun x => by omega
  rw [copyLoop_add, copyLoop_absent habs]
  change copyLoop (j + 2) (scarce n) pageA (b + 0x1000 * 511) = _
  rw [copyLoop, hA]
  dsimp only
  rw [copyLoop, hnext b, show pageA + 0x1000 = pageB from rfl]
  cases hv : copyPte u pageB (b + 0x1000 * 512) with
  | mk done v =>
    rw [hv] at hB
    obtain rfl : done = false := hB
    rfl

theorem stuck_scarce (hA : copyPte (scarce n) pageA (b + 0x1000 * 511) = (true, u))
    (hne : pageNr pageA ≠ pageNr (b + 0x1000 * 511)) (hfull : ∀ k < pagingPages, u.memMap k ≠ 0)
    (hpres : present (u.leaf pageB) = true) (hmissing : missing u (b + 0x1000 * 512) = some 1) :
    Wf u ∧ (copyPte u pageB (b + 0x1000 * 512)).1 = false := by
  have hroom : Roomy (0 + 1) (scarce n) := (scarce_inv n).roomy (by decide)
  obtain ⟨hwf, -, -⟩ := copyPte_leaf (scarce_inv n).wf hroom (by decide) hne hA
  refine ⟨hwf, copyPte_stuck hwf hpres fun t ht => ?_⟩
  rw [hmissing] at ht
  cases ht
  have hzero : freePages u = 0 :=
    getFreePage_eq_none_iff.mp (Option.map_eq_none_iff.mpr (findFree_eq_none_iff.mpr hfull))
  omega

theorem scarce_memMap_ne {k : Nat} (hk : k < n ∨ 1532 ≤ k) (hlt : k < pagingPages) :
    (scarce n).memMap k ≠ 0 := by
  change (if k < n ∧ twoPages.memMap k = 0 then 1 else twoPages.memMap k) ≠ 0
  split
  · decide
  rename_i hkeep
  intro hzero
  have hk' : 1532 ≤ k := hk.resolve_left fun hk => hkeep ⟨hk, hzero⟩
  obtain rfl | rfl | rfl | rfl : k = 1532 ∨ k = 1533 ∨ k = 1534 ∨ k = 1535 := by
    unfold pagingPages highMemory lowMem at hlt
    omega
  all_goals exact absurd hzero (by decide)

theorem copyMem_scarce {v : Memory} {limit nr : Nat} (p : Ldt)
    (hmod : (newBase nr).toNat % 0x200000 = 0)
    (hloop : copyLoop (roundUp limit / 0x1000) (scarce n) (slotBase 1) (newBase nr).toNat =
    (false, v)) (hfree : freePageTables v (newBase nr).toNat limit = .ok s') :
    copyMem (scarce n) limit limit (slotLdt 1) p nr = .ok (false, rebase p (newBase nr), s') := by
  obtain ⟨hbase, hold⟩ := getBase_slotLdt 1 (by decide)
  have halign : slotBase 1 % 0x200000 = 0 := by decide
  unfold copyMem copyPageTables
  dsimp only
  rw [if_neg (not_not.mpr hbase), if_neg (Nat.lt_irrefl _), hold,
    if_neg (not_or.mpr ⟨not_not.mpr halign, not_not.mpr hmod⟩), hloop, except_ok_bind]
  rw [if_neg Bool.false_ne_true, hfree]
  rfl

theorem scarce_vacant {nr : Nat} (hnr : UserSlot nr) (hne : nr ≠ 1) :
    ∀ i < slotPages, (scarce n).lookup ((newBase nr).toNat + 0x1000 * i) = none := by
  intro i hi
  have hpage : ∀ j < slotPages, pageNr (slotBase 1 + 0x1000 * j) ≠
      pageNr ((newBase nr).toNat + 0x1000 * i) := fun j hj =>
    noOverlap_newBase (by decide) hnr (fun _ => hne.symm) j hj i hi
  have hle : 0x1000 ≤ pageNr ((newBase nr).toNat + 0x1000 * i) := by
    have hpos := hnr.1
    by_cases hlow : nr < 32
    · rw [toNat_newBase nr hnr.2, if_pos hlow, pageNr_slotBase hnr.2 hi]
      unfold slotPages
      omega
    · rw [pageNr_newBase (Nat.not_lt.mp hlow) hnr.2 hi]
      omega
  rw [lookup_eq_none_iff, scarce_leaf n hle (hpage 511 (by decide)).symm
    (hpage 512 (by decide)).symm]
  rfl

/-- A fork into slot 2 with one free page: the page that was shared is taken back. -/
theorem copyMem_rolledBack_second : ∃ p' s',
    copyMem (scarce 1531) 0x400000 0x400000 (slotLdt 1) (slotLdt 1) 2 = .ok (false, p', s') ∧
      RolledBack (scarce 1531) s' (slotBase 1) (newBase 2).toNat := by
  have hone : UserSlot 1 := ⟨by decide, by decide⟩
  have htwo : UserSlot 2 := ⟨by decide, by decide⟩
  have hbase : (newBase 2).toNat = slotBase 2 := by decide
  have hempty := scarce_vacant (n := 1531) htwo (by decide)
  have hA : copyPte (scarce 1531) pageA (slotBase 2 + 0x1000 * 511) =
      (true, (copyPte (scarce 1531) pageA (slotBase 2 + 0x1000 * 511)).2) :=
    Prod.ext (by decide +kernel) rfl
  have hmap : (copyPte (scarce 1531) pageA (slotBase 2 + 0x1000 * 511)).2.memMap =
      update (update (scarce 1531).memMap 1531 1) 1535 2 := rfl
  obtain ⟨-, hB⟩ := stuck_scarce hA (by decide)
    (fun k hk => by
      rw [hmap, update_apply, update_apply]
      split
      · decide
      · split
        · decide
        · exact scarce_memMap_ne (by omega) hk)
    (by decide +kernel) (by decide +kernel)
  have hloop := copyLoop_scarce (j := 511) hA hB
  -- the loop that frees the range does not panic
  have hslot : EmptySlot (scarce 1531) 2 := fun i hi => hbase ▸ hempty i hi
  obtain ⟨r, v, m, hcopy, hinv, -⟩ := copyPageTables_spec (scarce_inv 1531) hone htwo (by decide)
    (by decide : 0x400000 ≤ 0x4000000) (view_none_of_empty hslot)
  obtain ⟨s', hfree, -⟩ := freePageTables_spec hinv htwo (by decide : 0x400000 ≤ 0x4000000)
  have hloop' : copyLoop (roundUp 0x400000 / 0x1000) (scarce 1531) (slotBase 1) (slotBase 2) =
      (r, v) := Except.ok.inj hcopy
  obtain ⟨rfl, -⟩ := Prod.mk.inj (hloop.symm.trans hloop')
  have hc := copyMem_scarce (slotLdt 1) (by decide) (hbase ▸ hloop') (hbase ▸ hfree)
  refine ⟨_, s', hc, ?_⟩
  exact (copyMem_rolledBack_iff (scarce_inv 1531) hone.2 htwo (by decide)
    (getBase_slotLdt 1 (by decide)).2 (by decide) hempty hc).mpr (.inl (by decide))

/-- In slot 63, with three free pages, the shared page stays. -/
theorem copyMem_slot63 : ∃ p' s', Inv (scarce 1529) [] ∧
    (∀ i < slotPages, (scarce 1529).lookup ((newBase 63).toNat + 0x1000 * i) = none) ∧
      copyMem (scarce 1529) 0x4000000 0x4000000 (slotLdt 1) (slotLdt 1) 63 = .ok (false, p', s') ∧
      ¬RolledBack (scarce 1529) s' (slotBase 1) (newBase 63).toNat := by
  have hlast : UserSlot 63 := ⟨by decide, by decide⟩
  have hA : copyPte (scarce 1529) pageA ((newBase 63).toNat + 0x1000 * 511) =
      (true, (copyPte (scarce 1529) pageA ((newBase 63).toNat + 0x1000 * 511)).2) :=
    Prod.ext (by decide +kernel) rfl
  have hmap : (copyPte (scarce 1529) pageA ((newBase 63).toNat + 0x1000 * 511)).2.memMap =
      update (update (update (update (scarce 1529).memMap 1531 1) 1530 1) 1529 1) 1535 2 := rfl
  obtain ⟨hwf, hB⟩ := stuck_scarce hA (by decide +kernel)
    (fun k hk => by
      rw [hmap, update_apply, update_apply, update_apply, update_apply]
      split
      · decide
      split
      · decide
      · split
        · decide
        · split
          · decide
          · exact scarce_memMap_ne (by omega) hk)
    (by decide +kernel) (by decide +kernel)
  have hpres : present ((copyPte (scarce 1529) pageA ((newBase 63).toNat + 0x1000 * 511)).2.leaf
      ((newBase 63).toNat + 0x1000 * 511)) = true := by decide +kernel
  generalize (copyPte (scarce 1529) pageA ((newBase 63).toNat + 0x1000 * 511)).2 = u at *
  have hloop := copyLoop_scarce (j := 0x4000 - 513) hA hB
  have hstop : copyPte u pageB ((newBase 63).toNat + 0x1000 * 512) =
      (false, (copyPte u pageB ((newBase 63).toNat + 0x1000 * 512)).2) := Prod.ext hB rfl
  obtain ⟨-, hext, -, -⟩ := copyPte_false hwf hstop
  generalize (copyPte u pageB ((newBase 63).toNat + 0x1000 * 512)).2 = v at *
  have hfree : freePageTables v (newBase 63).toNat 0x4000000 = .ok v := by
    rw [freePageTables_newBase hlast (by decide), if_pos ⟨rfl, by decide⟩]
  refine ⟨_, v, scarce_inv 1529, scarce_vacant hlast (by decide),
    copyMem_scarce (slotLdt 1) (by decide) hloop hfree, fun hrolled => ?_⟩
  have hnone := lookup_eq_none_iff.mp (hrolled.child 511 (by decide))
  rw [hext.leaf, hpres] at hnone
  cases hnone

end Linux001.Mm
