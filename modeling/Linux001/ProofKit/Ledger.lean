import Linux001.ProofKit.Sizes

/-! Frames that pages share under reference counts. A ledger has the count of every frame, the frame
of each page (and whether the page may write to it), the frames of tables, and the frames that are
not mapped yet. -/

namespace Linux001.ProofKit

open Function

variable {F P C : Type*}

structure Ledger (F P : Type*) where
  refs : F → Nat
  maps : P → Option (F × Bool)
  table : F → Prop
  held : F → Prop

namespace Ledger

def frame (L : Ledger F P) (p : P) : Option F := (L.maps p).map Prod.fst

variable {U : Finset P} {colour : P → C} {L L' : Ledger F P} {p q : P} {f : F} {w : Bool}
  {x : Option (F × Bool)}

theorem frame_of_maps (h : L.maps p = some (f, w)) : L.frame p = some f := by
  rw [frame, h, Option.map_some]

theorem frame_update [DecidableEq P] (hmaps : L'.maps = update L.maps p x)
    (r : P) : L'.frame r = if r = p then x.map Prod.fst else L.frame r := by
  rw [frame, hmaps]
  by_cases hr : r = p
  · rw [if_pos hr, hr, update_self]
  · rw [if_neg hr, update_of_ne hr, frame]

theorem frame_update_same [DecidableEq P] {w' : Bool} (hf : L.maps p = some (f, w))
    (hmaps : L'.maps = update L.maps p (some (f, w'))) (q : P) : L'.frame q = L.frame q := by
  rw [frame_update hmaps]
  by_cases hqp : q = p
  · rw [if_pos hqp, hqp, frame_of_maps hf, Option.map_some]
  · rw [if_neg hqp]

/-- What other pages map stays when a page without a frame gets one. -/
theorem frame_update_of_none [DecidableEq P] (hnone : L.maps p = none)
    (hmaps : L'.maps = update L.maps p x) (hq : L.frame q = some f) : L'.frame q = some f := by
  rw [frame_update hmaps, if_neg, hq]
  rintro rfl
  rw [frame, hnone] at hq
  cases hq

variable [DecidableEq F]

def users (U : Finset P) (L : Ledger F P) (f : F) : Finset P := U.filter fun p => L.frame p = some f

/-- Counts are exact, a writer is alone on its frame, and a frame has one colour. -/
structure Valid (U : Finset P) (colour : P → C) (L : Ledger F P) : Prop where
  counted : ∀ p ∈ U, ∀ f, L.frame p = some f → L.refs f = (L.users U f).card
  reserved : ∀ f, L.table f ∨ L.held f → L.refs f = 1 ∧ ∀ p ∈ U, L.frame p ≠ some f
  disjoint : ∀ f, L.table f → ¬L.held f
  alone : ∀ p ∈ U, ∀ q ∈ U, ∀ f, L.maps p = some (f, true) → L.frame q = some f → q = p
  colour : ∀ p ∈ U, ∀ q ∈ U, ∀ f, L.frame p = some f → L.frame q = some f → colour q = colour p

theorem mem_users : p ∈ L.users U f ↔ p ∈ U ∧ L.frame p = some f := Finset.mem_filter

theorem users_congr (h : ∀ p ∈ U, L'.frame p = L.frame p) (f : F) : L'.users U f = L.users U f :=
  Finset.filter_congr fun p hp => by rw [h p hp]

theorem card_users_update [DecidableEq P] (hp : p ∈ U)
    (hmaps : L'.maps = update L.maps p x) (g : F) :
    (L'.users U g).card + (if L.frame p = some g then 1 else 0) =
      (L.users U g).card + (if x.map Prod.fst = some g then 1 else 0) := by
  have hrest : ∑ q ∈ U.erase p, (if L'.frame q = some g then 1 else 0) =
      ∑ q ∈ U.erase p, (if L.frame q = some g then 1 else 0) := by
    refine Finset.sum_congr rfl fun q hq => ?_
    rw [frame, frame, hmaps, update_of_ne (Finset.ne_of_mem_erase hq)]
  have hx : L'.frame p = x.map Prod.fst := by rw [frame, hmaps, update_self]
  rw [users, users, Finset.card_filter, Finset.card_filter, ← Finset.add_sum_erase U _ hp,
    ← Finset.add_sum_erase U _ hp, hrest, hx]
  omega

namespace Valid

theorem refs_pos (h : Valid U colour L) (hp : p ∈ U) (hf : L.frame p = some f) : 0 < L.refs f := by
  rw [h.counted p hp f hf]
  exact Finset.card_pos.mpr ⟨p, mem_users.mpr ⟨hp, hf⟩⟩

theorem card_users_eq_zero (hf : ∀ p ∈ U, L.frame p ≠ some f) : (L.users U f).card = 0 :=
  Finset.card_eq_zero.mpr (Finset.filter_eq_empty_iff.mpr fun p hp => hf p hp)

section
variable (h : Valid U colour L)
include h

theorem not_mapped_of_zero (hf : L.refs f = 0) :
    ∀ p ∈ U, L.frame p ≠ some f := fun _ hp hpf =>
  absurd (h.refs_pos hp hpf) (by rw [hf]; exact Nat.lt_irrefl 0)

theorem not_reserved_of_zero (hf : L.refs f = 0) :
    ¬L.table f ∧ ¬L.held f := by
  rw [← not_or]
  intro hr
  rw [(h.reserved f hr).1] at hf
  exact Nat.one_ne_zero hf

theorem not_reserved (hp : p ∈ U) (hf : L.frame p = some f) :
    ¬L.table f ∧ ¬L.held f := by
  rw [← not_or]
  exact fun hr => (h.reserved f hr).2 p hp hf

theorem refs_le [DecidableEq C] {n : Nat}
    (hn : ∀ c, (U.filter fun q => colour q = c).card ≤ n) (hp : p ∈ U) (hf : L.frame p = some f) :
    L.refs f ≤ n := by
  rw [h.counted p hp f hf]
  refine (Finset.card_le_card fun q hq => ?_).trans (hn (colour p))
  obtain ⟨hqU, hqf⟩ := mem_users.mp hq
  exact Finset.mem_filter.mpr ⟨hqU, h.colour p hp q hqU f hf hqf⟩

/-- Every page keeps its frame, and a mapped frame its count. -/
theorem sameFrames (hframe : ∀ q, L'.frame q = L.frame q)
    (hrefs : ∀ q ∈ U, ∀ g, L.frame q = some g → L'.refs g = L.refs g)
    (hreserved : ∀ g, L'.table g ∨ L'.held g → L'.refs g = 1 ∧ ∀ q ∈ U, L.frame q ≠ some g)
    (hdisjoint : ∀ g, L'.table g → ¬L'.held g)
    (halone : ∀ q ∈ U, ∀ r ∈ U, ∀ g, L'.maps q = some (g, true) → L.frame r = some g → r = q) :
    Valid U colour L' := by
  refine ⟨fun q hq g hg => ?_, fun g hg => ?_, hdisjoint,
    fun q hq r hr g hqg hrg => halone q hq r hr g hqg (hframe r ▸ hrg),
    fun q hq r hr g hqg hrg => h.colour q hq r hr g (hframe q ▸ hqg) (hframe r ▸ hrg)⟩
  · rw [hframe] at hg
    rw [hrefs q hq g hg, users_congr fun r _ => hframe r]
    exact h.counted q hq g hg
  · obtain ⟨h1, hfree⟩ := hreserved g hg
    exact ⟨h1, fun q hq => hframe q ▸ hfree q hq⟩

/-- Nothing changes in what the pages map. -/
theorem sameMaps (hmaps : L'.maps = L.maps)
    (hrefs : ∀ q ∈ U, ∀ g, L.frame q = some g → L'.refs g = L.refs g)
    (hreserved : ∀ g, L'.table g ∨ L'.held g → L'.refs g = 1 ∧ ∀ q ∈ U, L.frame q ≠ some g)
    (hdisjoint : ∀ g, L'.table g → ¬L'.held g) : Valid U colour L' := by
  refine h.sameFrames (fun q => ?_) hrefs hreserved hdisjoint fun q hq r hr g hqg hrg => ?_
  · rw [frame, frame, hmaps]
  · exact h.alone q hq r hr g (hmaps ▸ hqg) hrg

/-- A free frame is taken. -/
theorem take (hf : L.refs f = 0) (hmaps : L'.maps = L.maps)
    (hrefs : L'.refs = update L.refs f 1) (htable : L'.table = L.table)
    (hheld : ∀ g, L'.held g → g = f ∨ L.held g) : Valid U colour L' := by
  have hmapped := h.not_mapped_of_zero hf
  refine h.sameMaps hmaps (fun q hq g hg => ?_) (fun g hg => ?_) fun g hg hg' => ?_
  · rw [hrefs, update_of_ne fun heq : g = f => hmapped q hq (heq ▸ hg)]
  · by_cases hgf : g = f
    · subst hgf
      exact ⟨by rw [hrefs, update_self], hmapped⟩
    · obtain ⟨h1, hfree⟩ := h.reserved g
        (hg.imp (fun ht => htable ▸ ht) fun hh => (hheld g hh).resolve_left hgf)
      exact ⟨by rw [hrefs, update_of_ne hgf, h1], hfree⟩
  · rw [htable] at hg
    rcases hheld g hg' with rfl | hh
    · exact (h.not_reserved_of_zero hf).1 hg
    · exact h.disjoint g hg hh

/-- Free frames become tables. -/
theorem grow (hmaps : L'.maps = L.maps) (hheld : L'.held = L.held)
    (hnew : ∀ g, L'.table g → ¬L.table g → L.refs g = 0 ∧ L'.refs g = 1)
    (hold : ∀ g, (L'.table g → L.table g) → L'.refs g = L.refs g) : Valid U colour L' := by
  have hkeep : ∀ g, L.refs g ≠ 0 → L'.refs g = L.refs g := fun g hg => hold g fun ht => by
    by_contra hnt
    exact hg (hnew g ht hnt).1
  refine h.sameMaps hmaps (fun q hq g hg => hkeep g (h.refs_pos hq hg).ne') (fun g hg => ?_)
    fun g hg hheld' => ?_
  · by_cases hgL : L.table g ∨ L.held g
    · obtain ⟨h1, hfree⟩ := h.reserved g hgL
      exact ⟨(hkeep g (by rw [h1]; exact Nat.one_ne_zero)).trans h1, hfree⟩
    · rw [not_or] at hgL
      obtain ⟨h0, h1⟩ := hnew g (hg.resolve_right (hheld ▸ hgL.2)) hgL.1
      exact ⟨h1, h.not_mapped_of_zero h0⟩
  · rw [hheld] at hheld'
    by_cases ht : L.table g
    · exact h.disjoint g ht hheld'
    · exact (h.not_reserved_of_zero (hnew g hg ht).1).2 hheld'

/-- Only free frames get another count. -/
theorem occupy (hmaps : L'.maps = L.maps) (htable : L'.table = L.table)
    (hheld : L'.held = L.held) (hrefs : ∀ f, L.refs f ≠ 0 → L'.refs f = L.refs f) :
    Valid U colour L' := by
  refine h.sameMaps hmaps (fun q hq g hg => hrefs g (h.refs_pos hq hg).ne') (fun g hg => ?_)
    fun g hg => ?_
  · rw [htable, hheld] at hg
    obtain ⟨hone, hfree⟩ := h.reserved g hg
    exact ⟨(hrefs g (by omega)).trans hone, hfree⟩
  · rw [hheld]
    exact h.disjoint g (htable ▸ hg)

/-- Frames are not counted as taken any more. -/
theorem forget (hmaps : L'.maps = L.maps) (hrefs : L'.refs = L.refs)
    (htable : L'.table = L.table) (hheld : ∀ g, L'.held g → L.held g) : Valid U colour L' := by
  refine h.sameMaps hmaps (fun _ _ _ _ => by rw [hrefs]) (fun g hg => ?_)
    fun g hg hg' => h.disjoint g (htable ▸ hg) (hheld g hg')
  rw [hrefs]
  exact h.reserved g (hg.imp (fun ht => htable ▸ ht) (hheld g))

/-- A frame that was taken is given back. -/
theorem release (hf : L.held f) (hmaps : L'.maps = L.maps)
    (hrefs : L'.refs = update L.refs f 0) (htable : L'.table = L.table)
    (hheld : ∀ g, L'.held g → L.held g ∧ g ≠ f) : Valid U colour L' := by
  have hfree := (h.reserved f (.inr hf)).2
  refine h.sameMaps hmaps (fun q hq g hg => ?_) (fun g hg => ?_)
    fun g hg hg' => h.disjoint g (htable ▸ hg) (hheld g hg').1
  · rw [hrefs, update_of_ne fun heq : g = f => hfree q hq (heq ▸ hg)]
  · have hgf : g ≠ f := by
      rintro rfl
      rcases hg with hg | hg
      · exact h.disjoint g (htable ▸ hg) hf
      · exact (hheld g hg).2 rfl
    rw [hrefs, update_of_ne hgf]
    exact h.reserved g (hg.imp (fun ht => htable ▸ ht) fun hh => (hheld g hh).1)

end

section Update

variable [DecidableEq P]

section
variable (h : Valid U colour L)
include h

/-- A page without a frame gets one that was taken, and may write to it. -/
theorem install (hp : p ∈ U) (hnone : L.maps p = none) (hf : L.held f)
    (hmaps : L'.maps = update L.maps p (some (f, true))) (hrefs : L'.refs = L.refs)
    (htable : L'.table = L.table) (hheld : ∀ g, L'.held g → L.held g ∧ g ≠ f) :
    Valid U colour L' := by
  have hfp : L.frame p = none := by rw [frame, hnone, Option.map_none]
  obtain ⟨hone, hfree⟩ := h.reserved f (.inr hf)
  have hframe := frame_update hmaps
  refine ⟨fun q hq g hg => ?_, fun g hg => ?_, fun g hg hg' => ?_, fun q hq r hr g hqg hrg => ?_,
    fun q hq r hr g hqg hrg => ?_⟩
  · have hcard := card_users_update hp hmaps g
    rw [hframe] at hg
    by_cases hqp : q = p
    · obtain rfl : f = g := by simpa [hqp] using hg
      simp [hfp, card_users_eq_zero hfree] at hcard
      rw [hrefs, hone, hcard]
    · rw [if_neg hqp] at hg
      have hgf : f ≠ g := fun heq => hfree q hq (heq ▸ hg)
      simp [hfp, hgf] at hcard
      rw [hrefs, hcard, h.counted q hq g hg]
  · have hg' : (L.table g ∨ L.held g) ∧ g ≠ f := by
      rcases hg with hg | hg
      · rw [htable] at hg
        refine ⟨.inl hg, ?_⟩
        rintro rfl
        exact h.disjoint g hg hf
      · exact ⟨.inr (hheld g hg).1, (hheld g hg).2⟩
    obtain ⟨h1, hfree'⟩ := h.reserved g hg'.1
    refine ⟨hrefs ▸ h1, fun q hq => ?_⟩
    rw [hframe]
    split
    · simpa using hg'.2.symm
    · exact hfree' q hq
  · exact h.disjoint g (htable ▸ hg) (hheld g hg').1
  · rw [hmaps] at hqg
    rw [hframe] at hrg
    by_cases hqp : q = p
    · subst hqp
      obtain rfl : f = g := by simpa using hqg
      by_contra hrq
      rw [if_neg hrq] at hrg
      exact hfree r hr hrg
    · rw [update_of_ne hqp] at hqg
      have hgf : g ≠ f := fun heq => hfree q hq (heq ▸ frame_of_maps hqg)
      by_cases hrp : r = p
      · simp [hrp, hgf.symm] at hrg
      · rw [if_neg hrp] at hrg
        exact h.alone q hq r hr g hqg hrg
  · rw [hframe] at hqg hrg
    by_cases hqp : q = p
    · by_cases hrp : r = p
      · rw [hqp, hrp]
      · obtain rfl : f = g := by simpa [hqp] using hqg
        rw [if_neg hrp] at hrg
        exact absurd hrg (hfree r hr)
    · rw [if_neg hqp] at hqg
      by_cases hrp : r = p
      · obtain rfl : f = g := by simpa [hrp] using hrg
        exact absurd hqg (hfree q hq)
      · rw [if_neg hrp] at hrg
        exact h.colour q hq r hr g hqg hrg

theorem drop (hp : p ∈ U) (hf : L.maps p = some (f, w))
    (hmaps : L'.maps = update L.maps p none) (hrefs : L'.refs = update L.refs f (L.refs f - 1))
    (htable : L'.table = L.table) (hheld : L'.held = L.held) : Valid U colour L' := by
  have hpf : L.frame p = some f := frame_of_maps hf
  have hframe : ∀ q g, L'.frame q = some g → q ≠ p ∧ L.frame q = some g := by
    intro q g hg
    rw [frame_update hmaps] at hg
    by_cases hqp : q = p
    · simp [hqp] at hg
    · rw [if_neg hqp] at hg
      exact ⟨hqp, hg⟩
  refine ⟨fun q hq g hg => ?_, fun g hg => ?_, fun g hg => ?_, fun q hq r hr g hqg hrg => ?_,
    fun q hq r hr g hqg hrg => h.colour q hq r hr g (hframe q g hqg).2 (hframe r g hrg).2⟩
  · have hcard := card_users_update hp hmaps g
    have hold := h.counted q hq g (hframe q g hg).2
    rw [hrefs]
    by_cases hgf : g = f
    · subst hgf
      rw [update_self]
      simp [hpf] at hcard
      omega
    · rw [update_of_ne hgf, hold]
      simpa [hpf, Ne.symm hgf] using hcard.symm
  · rw [htable, hheld] at hg
    obtain ⟨h1, hfree⟩ := h.reserved g hg
    have hgf : g ≠ f := fun heq => hfree p hp (heq ▸ hpf)
    refine ⟨by rw [hrefs, update_of_ne hgf, h1], fun q hq hqg => ?_⟩
    exact hfree q hq (hframe q g hqg).2
  · rw [hheld]
    exact h.disjoint g (htable ▸ hg)
  · have hqp := (hframe q g (frame_of_maps hqg)).1
    rw [hmaps, update_of_ne hqp] at hqg
    exact h.alone q hq r hr g hqg (hframe r g hrg).2

/-- Only what a page may do with its frame changes. -/
theorem chmod {w' : Bool} (hf : L.maps p = some (f, w))
    (hmaps : L'.maps = update L.maps p (some (f, w'))) (hrefs : L'.refs = L.refs)
    (htable : L'.table = L.table) (hheld : L'.held = L.held)
    (halone : w' = true → ∀ r ∈ U, L.frame r = some f → r = p) : Valid U colour L' := by
  refine h.sameFrames (frame_update_same hf hmaps) (fun _ _ _ _ => by rw [hrefs])
    (by rw [hrefs, htable, hheld]; exact h.reserved) (by rw [htable, hheld]; exact h.disjoint)
    fun q hq r hr g hqg hrg => ?_
  rw [hmaps] at hqg
  by_cases hqp : q = p
  · rw [hqp, update_self] at hqg
    cases hqg
    exact (halone rfl r hr hrg).trans hqp.symm
  · rw [update_of_ne hqp] at hqg
    exact h.alone q hq r hr g hqg hrg

/-- A page that is alone on its frame may write to it. -/
theorem permit (hp : p ∈ U) (hf : L.maps p = some (f, w))
    (hone : L.refs f = 1) (hmaps : L'.maps = update L.maps p (some (f, true)))
    (hrefs : L'.refs = L.refs) (htable : L'.table = L.table) (hheld : L'.held = L.held) :
    Valid U colour L' := by
  refine h.chmod hf hmaps hrefs htable hheld fun _ r hr hrf => ?_
  have hpf : L.frame p = some f := frame_of_maps hf
  have hcard := (h.counted p hp f hpf).symm.trans hone
  exact Finset.card_le_one.mp hcard.le r (mem_users.mpr ⟨hr, hrf⟩) p (mem_users.mpr ⟨hp, hpf⟩)

/-- A page may not write to its frame any more. -/
theorem protect (hf : L.maps p = some (f, w))
    (hmaps : L'.maps = update L.maps p (some (f, false))) (hrefs : L'.refs = L.refs)
    (htable : L'.table = L.table) (hheld : L'.held = L.held) : Valid U colour L' :=
  h.chmod hf hmaps hrefs htable hheld nofun

/-- A page joins a page of its colour, which may not write to their frame. -/
theorem join (hp : p ∈ U) (hq : q ∈ U) (hf : L.maps p = some (f, false)) (hnone : L.maps q = none)
    (hcol : colour q = colour p) (hmaps : L'.maps = update L.maps q (some (f, false)))
    (hrefs : L'.refs = update L.refs f (L.refs f + 1)) (htable : L'.table = L.table)
    (hheld : L'.held = L.held) : Valid U colour L' := by
  have hpf : L.frame p = some f := frame_of_maps hf
  have hqf : L.frame q = none := by rw [frame, hnone, Option.map_none]
  have hframe := frame_update hmaps
  refine ⟨fun r hr g hg => ?_, fun g hg => ?_, fun g hg => ?_, fun r hr r' hr' g hrg hrg' => ?_,
    fun r hr r' hr' g hrg hrg' => ?_⟩
  · have hcard := card_users_update hq hmaps g
    by_cases hgf : g = f
    · subst hgf
      have hold := h.counted p hp g hpf
      simp [hqf] at hcard
      rw [hrefs, update_self, hcard, hold]
    have hrg : L.frame r = some g := by
      rw [hframe] at hg
      by_cases hrq : r = q
      · simp [hrq, Ne.symm hgf] at hg
      · rwa [if_neg hrq] at hg
    simp [hqf, Ne.symm hgf] at hcard
    rw [hrefs, update_of_ne hgf, hcard, h.counted r hr g hrg]
  · rw [htable, hheld] at hg
    obtain ⟨h1, hfree⟩ := h.reserved g hg
    have hgf : g ≠ f := fun heq => hfree p hp (heq ▸ hpf)
    refine ⟨by rw [hrefs, update_of_ne hgf, h1], fun r hr => ?_⟩
    rw [hframe]
    split
    · simpa using hgf.symm
    · exact hfree r hr
  · rw [hheld]
    exact h.disjoint g (htable ▸ hg)
  · rw [hmaps] at hrg
    have hrq : r ≠ q := by
      rintro rfl
      simp at hrg
    rw [update_of_ne hrq] at hrg
    -- a writer of `f` would be `p`, which is not one
    have hgf : g ≠ f := by
      rintro rfl
      obtain rfl := h.alone r hr p hp g hrg hpf
      rw [hf] at hrg
      simp at hrg
    rw [hframe] at hrg'
    by_cases hrq' : r' = q
    · simp [hrq', hgf.symm] at hrg'
    · rw [if_neg hrq'] at hrg'
      exact h.alone r hr r' hr' g hrg hrg'
  · have hcolour : ∀ r ∈ U, L'.frame r = some g → ∃ r0 ∈ U, L.frame r0 = some g ∧
        colour r0 = colour r := by
      intro r hr hrg
      rw [hframe] at hrg
      by_cases hrq : r = q
      · obtain rfl : f = g := by simpa [hrq] using hrg
        exact ⟨p, hp, hpf, by rw [hrq, hcol]⟩
      · rw [if_neg hrq] at hrg
        exact ⟨r, hr, hrg, rfl⟩
    obtain ⟨r0, hr0, hrg0, hc⟩ := hcolour r hr hrg
    obtain ⟨r1, hr1, hrg1, hc'⟩ := hcolour r' hr' hrg'
    rw [← hc, ← hc']
    exact h.colour r0 hr0 r1 hr1 g hrg0 hrg1

end

end Update

end Valid

/-- The frame is a table, or was taken, or a page maps it. -/
def Accounted (U : Finset P) (L : Ledger F P) (f : F) : Prop :=
  L.table f ∨ L.held f ∨ ∃ p ∈ U, L.frame p = some f

def Complete (U : Finset P) (live : F → Prop) (L : Ledger F P) : Prop :=
  ∀ f, live f → L.refs f ≠ 0 → Accounted U L f

omit [DecidableEq F] in
theorem Accounted.imp (h : Accounted U L f) (htable : L.table f → L'.table f)
    (hheld : L.held f → L'.held f) (hframe : ∀ p ∈ U, L.frame p = some f → L'.frame p = some f) :
    Accounted U L' f := by
  rcases h with ht | hh | ⟨p, hp, hpf⟩
  · exact .inl (htable ht)
  · exact .inr (.inl (hheld hh))
  · exact .inr (.inr ⟨p, hp, hframe p hp hpf⟩)

namespace Complete

variable {live : F → Prop}

omit [DecidableEq F] in
theorem congr (h : Complete U live L) (hframe : ∀ p, L'.frame p = L.frame p)
    (hrefs : L'.refs = L.refs) (htable : L'.table = L.table) (hheld : L'.held = L.held) :
    Complete U live L' := by
  intro f hf hne
  refine (h f hf (hrefs ▸ hne)).imp (fun ht => htable ▸ ht) (fun hh => hheld ▸ hh) fun p _ hpf => ?_
  rw [hframe, hpf]

theorem take (h : Complete U live L) (hmaps : L'.maps = L.maps)
    (hrefs : L'.refs = update L.refs f 1) (htable : L'.table = L.table) (hf : L'.held f)
    (hheld : ∀ g, L.held g → L'.held g) : Complete U live L' := by
  intro g hg hne
  by_cases hgf : g = f
  · exact .inr (.inl (hgf ▸ hf))
  · rw [hrefs, update_of_ne hgf] at hne
    refine (h g hg hne).imp (fun ht => htable ▸ ht) (hheld g) fun p _ hpg => ?_
    rw [frame, hmaps]
    exact hpg

omit [DecidableEq F] in
theorem grow (h : Complete U live L) (hmaps : L'.maps = L.maps) (hheld : L'.held = L.held)
    (htable : ∀ f, L.table f → L'.table f)
    (hrefs : ∀ f, (L'.table f → L.table f) → L'.refs f = L.refs f) : Complete U live L' := by
  intro f hf hne
  by_cases ht : L'.table f
  · exact .inl ht
  · rw [hrefs f fun h' => absurd h' ht] at hne
    refine (h f hf hne).imp (htable f) (fun hh => hheld ▸ hh) fun p _ hpf => ?_
    rw [frame, hmaps]
    exact hpf

theorem release (h : Complete U live L) (hmaps : L'.maps = L.maps)
    (hrefs : L'.refs = update L.refs f 0) (htable : L'.table = L.table)
    (hheld : ∀ g, g ≠ f → L.held g → L'.held g) : Complete U live L' := by
  intro g hg hne
  have hgf : g ≠ f := by
    rintro rfl
    rw [hrefs, update_self] at hne
    exact hne rfl
  rw [hrefs, update_of_ne hgf] at hne
  refine (h g hg hne).imp (fun ht => htable ▸ ht) (hheld g hgf) fun p _ hpg => ?_
  rw [frame, hmaps]
  exact hpg

variable [DecidableEq P]

theorem install (h : Complete U live L) (hp : p ∈ U) (hnone : L.maps p = none)
    (hmaps : L'.maps = update L.maps p (some (f, true))) (hrefs : L'.refs = L.refs)
    (htable : L'.table = L.table) (hheld : ∀ g, g ≠ f → L.held g → L'.held g) :
    Complete U live L' := by
  intro g hg hne
  by_cases hgf : g = f
  · exact .inr (.inr ⟨p, hp, by rw [frame_update hmaps, if_pos rfl, hgf, Option.map_some]⟩)
  · exact (h g hg (hrefs ▸ hne)).imp (fun ht => htable ▸ ht) (hheld g hgf)
      fun q _ hq => frame_update_of_none hnone hmaps hq

theorem drop (h : Complete U live L) (hv : Valid U colour L) (hp : p ∈ U)
    (hf : L.maps p = some (f, w)) (hmaps : L'.maps = update L.maps p none)
    (hrefs : L'.refs = update L.refs f (L.refs f - 1)) (htable : L'.table = L.table)
    (hheld : L'.held = L.held) : Complete U live L' := by
  have hpf : L.frame p = some f := frame_of_maps hf
  intro g hg hne
  by_cases hgf : g = f
  · -- the count was that of the users, and one of them is left
    subst hgf
    have hcard := card_users_update hp hmaps g
    rw [hrefs, update_self, hv.counted p hp g hpf] at hne
    simp only [hpf, if_true, Option.map_none, reduceCtorEq, if_false] at hcard
    obtain ⟨q, hq⟩ := Finset.card_pos.mp (show 0 < (L'.users U g).card by omega)
    obtain ⟨hqU, hqf⟩ := mem_users.mp hq
    exact .inr (.inr ⟨q, hqU, hqf⟩)
  · rw [hrefs, update_of_ne hgf] at hne
    refine (h g hg hne).imp (fun ht => htable ▸ ht) (fun hh => hheld ▸ hh) fun q _ hq => ?_
    rw [frame_update hmaps, if_neg, hq]
    rintro rfl
    exact hgf (Option.some.inj (hq.symm.trans hpf))

theorem join (h : Complete U live L) (hq : q ∈ U) (hnone : L.maps q = none)
    (hmaps : L'.maps = update L.maps q (some (f, false)))
    (hrefs : L'.refs = update L.refs f (L.refs f + 1)) (htable : L'.table = L.table)
    (hheld : L'.held = L.held) : Complete U live L' := by
  intro g hg hne
  by_cases hgf : g = f
  · exact .inr (.inr ⟨q, hq, by rw [frame_update hmaps, if_pos rfl, hgf, Option.map_some]⟩)
  · rw [hrefs, update_of_ne hgf] at hne
    exact (h g hg hne).imp (fun ht => htable ▸ ht) (fun hh => hheld ▸ hh)
      fun r _ hr => frame_update_of_none hnone hmaps hr

end Complete

end Ledger

end Linux001.ProofKit
