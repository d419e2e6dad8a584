import Linux001.ProofKit.LinkedList

/-! Doubly linked lists, with the assignments that take an element out and put one in.
`DList next prev p q xs` is a list that ends with a null pointer, and `Ring next prev xs` a circular
one. -/

namespace Linux001.ProofKit

open Function

variable {α β : Type*}

section Store

variable [DecidableEq α]

/-- `p->f = v`, which has no effect where `p` is null. -/
def store (f : α → β) (p : Option α) (v : β) : α → β :=
  match p with
  | some a => update f a v
  | none => f

@[simp] theorem store_some (f : α → β) (a : α) (v : β) : store f (some a) v = update f a v := rfl

theorem store_of_ne {f : α → β} {p : Option α} {v : β} {a : α} (h : p ≠ some a) :
    store f p v a = f a := by
  cases p with
  | none => rfl
  | some b => exact update_of_ne (fun hab => h (by rw [hab])) _ _

end Store

/-- The links from the entry `q` on are `xs`, and the first link back is `p`. -/
def DList (next prev : α → Option α) : Option α → Option α → List α → Prop
  | _, q, [] => q = none
  | p, q, a :: xs => q = some a ∧ prev a = p ∧ DList next prev (some a) (next a) xs

namespace DList

variable {next next' prev prev' : α → Option α} {p q : Option α} {a b : α} {l r xs : List α}

theorem head?_eq (h : DList next prev p q xs) : xs.head? = q := by
  cases xs with
  | nil => exact h.symm
  | cons a xs => exact h.1.symm

theorem congr (h : DList next prev p q xs) (hn : ∀ a ∈ xs, next' a = next a)
    (hp : ∀ a ∈ xs, prev' a = prev a) : DList next' prev' p q xs := by
  induction xs generalizing p q with
  | nil => exact h
  | cons a xs ih =>
    obtain ⟨hq, hpa, h⟩ := h
    refine ⟨hq, by rw [hp a (by simp), hpa], ?_⟩
    rw [hn a (by simp)]
    exact ih h (fun b hb => hn b (by simp [hb])) (fun b hb => hp b (by simp [hb]))

theorem leads_iff (h : DList next prev p q xs) : Leads next q a ↔ a ∈ xs := by
  induction xs generalizing p q with
  | nil =>
    obtain rfl : q = none := h
    exact iff_of_false (not_leads_none a) List.not_mem_nil
  | cons b xs ih =>
    obtain ⟨rfl, -, h⟩ := h
    rw [List.mem_cons, ← ih h]
    constructor
    · intro hl
      cases hl with
      | here => exact .inl rfl
      | there hl => exact .inr hl
    · rintro (rfl | hl)
      · exact .here _
      · exact .there hl

theorem next_eq (h : DList next prev p q (l ++ a :: r)) : next a = r.head? := by
  induction l generalizing p q with
  | nil => exact h.2.2.head?_eq.symm
  | cons b l ih => exact ih h.2.2

theorem prev_eq (h : DList next prev p q (l ++ a :: r)) : prev a = l.getLast?.or p := by
  induction l generalizing p q with
  | nil => exact h.2.1
  | cons b l ih =>
    rw [ih h.2.2]
    cases l with
    | nil => rfl
    | cons c l => simp [List.getLast?_cons]

theorem prev_eq_of_next (h : DList next prev p q xs) (ha : a ∈ xs) (hn : next a = some b) :
    b ∈ xs ∧ prev b = some a := by
  obtain ⟨l, r, rfl⟩ := List.append_of_mem ha
  have hr := h.next_eq
  rw [hn] at hr
  obtain ⟨r, rfl⟩ : ∃ r', r = b :: r' := by
    cases r with
    | nil => simp at hr
    | cons c r => exact ⟨r, by simpa using hr.symm⟩
  refine ⟨by simp, ?_⟩
  rw [List.append_cons] at h
  simpa using h.prev_eq

theorem next_eq_of_prev (h : DList next prev none q xs) (hb : b ∈ xs) (hp : prev b = some a) :
    a ∈ xs ∧ next a = some b := by
  obtain ⟨l, r, rfl⟩ := List.append_of_mem hb
  have hl := h.prev_eq
  rw [hp, Option.or_none] at hl
  obtain ⟨l, rfl⟩ := List.getLast?_eq_some_iff.mp hl.symm
  refine ⟨by simp, ?_⟩
  rw [List.append_assoc] at h
  exact h.next_eq

theorem not_self (h : DList next prev none q xs) (hnd : xs.Nodup) (ha : a ∈ xs) :
    next a ≠ some a ∧ prev a ≠ some a := by
  have hn : next a ≠ some a := by
    obtain ⟨l, r, rfl⟩ := List.append_of_mem ha
    rw [h.next_eq]
    intro hr
    exact (List.nodup_cons.mp (List.nodup_append.mp hnd).2.1).1 (List.mem_of_mem_head? hr)
  exact ⟨hn, fun hp => hn (h.next_eq_of_prev ha hp).2⟩

theorem prev_of_entry (h : DList next prev p (some a) xs) : prev a = p := by
  cases xs with
  | nil => cases h
  | cons b xs =>
    obtain ⟨hab, hp, -⟩ := h
    rwa [Option.some.inj hab]

variable [DecidableEq α]

/-- `a->next->prev = a->prev; a->prev->next = a->next` takes `a` out. -/
theorem remove (h : DList next prev p q (l ++ a :: r)) (hnd : (l ++ a :: r).Nodup)
    (hp : ∀ u, p = some u → u ∉ l ++ a :: r) :
    DList (store next (prev a) (next a)) (store prev (next a) (prev a)) p
      (if q = some a then next a else q) (l ++ r) := by
  induction l generalizing p q with
  | nil =>
    obtain ⟨rfl, hpa, h⟩ := h
    rw [if_pos rfl, List.nil_append]
    cases r with
    | nil => exact h
    | cons b r =>
      obtain ⟨hb, -, h⟩ := h
      have hu : ∀ c ∈ b :: r, prev a ≠ some c := fun c hc hac =>
        hp c (hpa ▸ hac) (List.mem_cons_of_mem _ hc)
      have hbr : b ∉ r := (List.nodup_cons.mp (List.nodup_cons.mp hnd).2).1
      refine ⟨hb, by rw [hb, store_some, update_self, hpa], ?_⟩
      rw [store_of_ne (hu b (by simp))]
      refine h.congr (fun c hc => store_of_ne (hu c (by simp [hc]))) (fun c hc => ?_)
      rw [hb]
      exact store_of_ne fun hbc => hbr (Option.some.inj hbc ▸ hc)
  | cons x l ih =>
    obtain ⟨rfl, hpx, h⟩ := h
    have hx : x ∉ l ++ a :: r := (List.nodup_cons.mp hnd).1
    have hxa : x ≠ a := fun hxa => hx (by simp [hxa])
    have hback : ∀ u, some x = some u → u ∉ l ++ a :: r := fun u hu => Option.some.inj hu ▸ hx
    have hrest := ih h (List.nodup_cons.mp hnd).2 hback
    rw [if_neg (by simpa using hxa)]
    refine ⟨rfl, ?_, ?_⟩
    · rw [store_of_ne, hpx]
      rw [h.next_eq]
      exact fun hr => hx (by simp [List.mem_of_mem_head? hr])
    -- `x` is followed by `a` exactly where it is the back link of `a`.
    have hlink : store next (prev a) (next a) x = if next x = some a then next a else next x := by
      cases l with
      | nil =>
        rw [h.1, h.2.1, if_pos rfl, store_some, update_self]
      | cons y l =>
        have hya : y ≠ a := fun hya => by simp [hya] at hnd
        obtain ⟨z, hz⟩ : ∃ z, (y :: l).getLast? = some z :=
          ⟨_, List.getLast?_eq_some_getLast (List.cons_ne_nil y l)⟩
        have hzx : z ≠ x := fun hzx =>
          hx (List.mem_append_left _ (hzx ▸ List.mem_of_getLast? hz))
        rw [if_neg (by rw [h.1]; simpa using hya), store_of_ne]
        rw [h.prev_eq, hz, Option.some_or]
        simpa using hzx
    rw [hlink]
    exact hrest

/-- `b->prev = NULL; b->next = entry; entry = b; b->next->prev = b`. -/
theorem push (h : DList next prev none q xs) (hnd : xs.Nodup) (hb : b ∉ xs) :
    DList (update next b q) (store (update prev b none) q (some b)) none (some b) (b :: xs) := by
  have hq : q ≠ some b := fun hq => hb (List.mem_of_mem_head? (by rw [h.head?_eq, hq]; rfl))
  refine ⟨rfl, by rw [store_of_ne hq, update_self], ?_⟩
  rw [update_self]
  cases xs with
  | nil => exact h
  | cons a xs =>
    obtain ⟨rfl, -, h⟩ := h
    have hna : a ∉ xs := (List.nodup_cons.mp hnd).1
    have hba : a ≠ b := fun hab => hb (by simp [hab])
    refine ⟨rfl, by rw [store_some, update_self], ?_⟩
    rw [update_of_ne hba]
    refine h.congr (fun c hc => ?_) (fun c hc => ?_)
    · exact update_of_ne (fun hcb => hb (by simp [← hcb, hc])) _ _
    · rw [store_some, update_of_ne (ne_of_mem_of_not_mem hc hna),
        update_of_ne (fun hcb => hb (by simp [← hcb, hc]))]

end DList

/-- The links form one circle through `xs`. -/
structure Ring (next prev : α → α) (xs : List α) : Prop where
  next : xs.map next = xs.rotate 1
  prev : (xs.rotate 1).map prev = xs

namespace Ring

variable {next prev : α → α} {a b : α} {xs ys : List α}

theorem rotate (h : Ring next prev xs) (k : Nat) : Ring next prev (xs.rotate k) := by
  constructor
  · rw [List.map_rotate, h.next, List.rotate_rotate, List.rotate_rotate, Nat.add_comm]
  · rw [List.rotate_rotate, Nat.add_comm, ← List.rotate_rotate, List.map_rotate, h.prev]

theorem exists_cons (h : Ring next prev xs) (ha : a ∈ xs) :
    ∃ ys, (a :: ys).Perm xs ∧ Ring next prev (a :: ys) := by
  obtain ⟨l, r, rfl⟩ := List.append_of_mem ha
  have hrot := h.rotate l.length
  rw [List.rotate_append_length_eq, List.cons_append] at hrot
  exact ⟨r ++ l, (List.perm_append_comm.cons a).trans List.perm_middle.symm, hrot⟩

theorem iff_ends {zs ws : List α} {u v : α} (h : zs ++ [u] = v :: ws) :
    Ring next prev (v :: ws) ↔
      (zs.map next = ws ∧ next u = v) ∧ ws.map prev = zs ∧ prev v = u := by
  have hrot : (v :: ws).rotate 1 = ws ++ [v] := by simp
  constructor
  · rintro ⟨hn, hp⟩
    rw [hrot, ← h, List.map_append] at hn hp
    exact ⟨by simpa using List.append_inj' hn rfl, by simpa using List.append_inj' hp rfl⟩
  · rintro ⟨⟨hn, hu⟩, hp, hv⟩
    refine ⟨?_, ?_⟩
    · rw [hrot, ← h, List.map_append, hn]
      simp [hu]
    · rw [hrot, ← h, List.map_append, hp]
      simp [hv]

theorem exists_ends (v : α) (ws : List α) : ∃ zs u, zs ++ [u] = v :: ws :=
  ⟨_, _, List.dropLast_append_getLast (List.cons_ne_nil v ws)⟩

theorem map {β : Type*} {f : α → β} {next' prev' : β → β} (h : Ring next prev xs)
    (hn : ∀ a ∈ xs, next' (f a) = f (next a)) (hp : ∀ a ∈ xs, prev' (f a) = f (prev a)) :
    Ring next' prev' (xs.map f) := by
  constructor
  · rw [List.map_map, ← List.map_rotate, ← h.next, List.map_map]
    exact List.map_congr_left hn
  · rw [← List.map_rotate, List.map_map]
    nth_rewrite 2 [← h.prev]
    rw [List.map_map]
    exact List.map_congr_left fun a ha => hp a (List.mem_rotate.mp ha)

theorem of_map {β : Type*} {f : α → β} {next' prev' : β → β} (h : Ring next prev xs)
    (h' : Ring next' prev' (xs.map f)) :
    ∀ a ∈ xs, next' (f a) = f (next a) ∧ prev' (f a) = f (prev a) := by
  have hn := h'.next
  have hp := h'.prev
  rw [← List.map_rotate, List.map_map] at hn hp
  rw [← h.next, List.map_map] at hn
  nth_rewrite 2 [← h.prev] at hp
  rw [List.map_map] at hp
  exact fun a ha =>
    ⟨List.map_inj_left.mp hn a ha, List.map_inj_left.mp hp a (List.mem_rotate.mpr ha)⟩

theorem range {n : Nat} (hn : 0 < n) : Ring (fun b => if b = n - 1 then 0 else b + 1)
    (fun b => if b = 0 then n - 1 else b - 1) (List.range n) := by
  obtain ⟨m, rfl⟩ : ∃ m, n = m + 1 := ⟨n - 1, by omega⟩
  have hends : List.range m ++ [m] = 0 :: (List.range m).map Nat.succ := by
    rw [← List.range_succ, List.range_succ_eq_map]
  rw [List.range_succ, hends]
  refine (iff_ends hends).mpr ⟨⟨?_, if_pos rfl⟩, ?_, if_pos rfl⟩
  · refine List.map_congr_left fun b hb => if_neg ?_
    have := List.mem_range.mp hb
    omega
  · rw [List.map_map]
    refine (List.map_congr_left fun b _ => ?_).trans (List.map_id _)
    simp

variable [DecidableEq α]

theorem map_update {γ : Type*} {f : α → γ} {c : γ} (ha : a ∉ xs) :
    xs.map (update f a c) = xs.map f :=
  List.map_congr_left fun _ hb => update_of_ne (ne_of_mem_of_not_mem hb ha) _ _

/-- `a->prev->next = a->next; a->next->prev = a->prev` takes `a` out. -/
theorem remove (h : Ring next prev xs) (hnd : xs.Nodup) (ha : a ∈ xs) (hlen : 2 ≤ xs.length) :
    ∃ ys, (a :: ys).Perm xs ∧ next a ∈ ys ∧
      Ring (update next (prev a) (next a)) (update prev (next a) (prev a)) ys := by
  obtain ⟨ys, hperm, h⟩ := h.exists_cons ha
  obtain ⟨hay, hys⟩ := List.nodup_cons.mp (hperm.nodup_iff.mpr hnd)
  refine ⟨ys, hperm, ?_⟩
  cases ys with
  | nil =>
    have hone := hperm.length_eq
    simp only [List.length_singleton] at hone
    omega
  | cons v ws =>
    obtain ⟨zs, u, hends⟩ := exists_ends v ws
    have hall : (a :: zs) ++ [u] = a :: v :: ws := by rw [List.cons_append, hends]
    obtain ⟨⟨hn, hu⟩, hp, hv⟩ := (iff_ends hall).mp h
    obtain ⟨hna, hn⟩ := List.cons.inj hn
    obtain ⟨hpv, hp⟩ := List.cons.inj hp
    have huz : u ∉ zs := fun hmem => by
      rw [← hends] at hys
      exact (List.nodup_append.mp hys).2.2 u hmem u (by simp) rfl
    have hvw : v ∉ ws := (List.nodup_cons.mp hys).1
    rw [hna, hv]
    refine ⟨by simp, (iff_ends hends).mpr ⟨⟨?_, update_self ..⟩, ?_, update_self ..⟩⟩
    · rw [map_update huz, hn]
    · rw [map_update hvw, hp]

/-- `b->next = a; b->prev = a->prev; a->prev->next = b; a->prev = b`. -/
theorem insert (h : Ring next prev xs) (hnd : xs.Nodup) (ha : a ∈ xs) (hb : b ∉ xs) :
    ∃ ys, ys.Perm (b :: xs) ∧
      Ring (update (update next b a) (prev a) b) (update (update prev b (prev a)) a b) ys := by
  obtain ⟨ys, hperm, h⟩ := h.exists_cons ha
  have hays := hperm.nodup_iff.mpr hnd
  have hb : b ∉ a :: ys := fun hmem => hb (hperm.mem_iff.mp hmem)
  obtain ⟨zs, u, hends⟩ := exists_ends a ys
  obtain ⟨⟨hn, hu⟩, hp, hpa⟩ := (iff_ends hends).mp h
  have huz : u ∉ zs := fun hmem => by
    rw [← hends] at hays
    exact (List.nodup_append.mp hays).2.2 u hmem u (by simp) rfl
  have hay : a ∉ ys := (List.nodup_cons.mp hays).1
  have hbz : b ∉ zs := fun hmem => hb (hends ▸ List.mem_append_left _ hmem)
  have hbu : b ≠ u := fun hbu => hb (hends ▸ by simp [hbu])
  have hby : b ∉ ys := fun hmem => hb (List.mem_cons_of_mem _ hmem)
  have hba : b ≠ a := fun hba => hb (by simp [hba])
  refine ⟨a :: (ys ++ [b]), ?_, ?_⟩
  · exact (List.perm_append_singleton b (a :: ys)).trans (hperm.cons b)
  rw [hpa]
  have hall : (a :: ys) ++ [b] = a :: (ys ++ [b]) := rfl
  refine (iff_ends hall).mpr ⟨⟨?_, ?_⟩, ?_, update_self ..⟩
  · rw [← hends, List.map_append, map_update huz, map_update hbz, hn]
    simp
  · rw [update_of_ne hbu, update_self]
  · rw [List.map_append, map_update hay, map_update hby, hp, ← hends]
    simp [hba]

end Ring

end Linux001.ProofKit
