import Linux001.ProofKit.Sizes

/-! Trees of pointers that are kept in blocks. A root `r` has a pointer `top r` and a depth; a block
at a depth above 0 holds pointers `ent b k`, and 0 is the null pointer. A slot is a root with the
indices that lead from it to a pointer, the last one first. -/

namespace Linux001.ProofKit

open Function

variable {ρ κ : Type*}

structure Forest (ρ κ : Type*) where
  top : ρ → Nat
  ent : Nat → κ → Nat

namespace Forest

variable {F F' : Forest ρ κ} {depth : ρ → Nat} {r : ρ} {k : κ} {path : List κ} {n : Nat} {m : Nat}
  {gone : ρ → Prop}

/-- The pointer in a slot, 0 where the block of the slot is missing. -/
def value (F : Forest ρ κ) (r : ρ) : List κ → Nat
  | [] => F.top r
  | k :: path => if F.value r path = 0 then 0 else F.ent (F.value r path) k

theorem value_cons :
    F.value r (k :: path) = if F.value r path = 0 then 0 else F.ent (F.value r path) k := rfl

theorem value_cons_of_ne (h : F.value r path ≠ 0) :
    F.value r (k :: path) = F.ent (F.value r path) k := if_neg h

theorem value_cons_of_eq (h : F.value r path = 0) : F.value r (k :: path) = 0 := if_pos h

def Points (depth : ρ → Nat) (F : Forest ρ κ) (n : Nat) : Prop :=
  ∃ r path, path.length ≤ depth r ∧ F.value r path = n

/-- Some slot points to the block `n`, and the block holds pointers. -/
def Inner (depth : ρ → Nat) (F : Forest ρ κ) (n : Nat) : Prop :=
  ∃ r path, path.length < depth r ∧ F.value r path = n

def Distinct (depth : ρ → Nat) (F : Forest ρ κ) : Prop :=
  ∀ r path r' path', path.length ≤ depth r → path'.length ≤ depth r' → F.value r path ≠ 0 →
    F.value r path = F.value r' path' → r = r' ∧ path = path'

theorem value_congr (htop : F'.top r = F.top r)
    (hent : ∀ path, path.length < depth r → F.value r path ≠ 0 →
      ∀ k, F'.ent (F.value r path) k = F.ent (F.value r path) k)
    (hlen : path.length ≤ depth r) : F'.value r path = F.value r path := by
  induction path with
  | nil => exact htop
  | cons k path ih =>
    have hlt : path.length < depth r := hlen
    have hv := ih (Nat.le_of_lt hlt)
    by_cases h0 : F.value r path = 0
    · rw [value_cons_of_eq h0, value_cons_of_eq (hv.trans h0)]
    · rw [value_cons_of_ne h0, value_cons_of_ne (hv ▸ h0), hv, hent path hlt h0]

theorem value_congr_of_not_inner (htop : F'.top = F.top) (hent : ∀ b, b ≠ n → F'.ent b = F.ent b)
    (hn : ¬Inner depth F n) (hlen : path.length ≤ depth r) : F'.value r path = F.value r path :=
  value_congr (by rw [htop]) (fun q hq _ _ => by
    rw [hent]
    rintro rfl
    exact hn ⟨r, q, hq, rfl⟩) hlen

/-- What it takes to put a pointer to `n` into the empty slot `(r, path)`. -/
structure Adds (depth : ρ → Nat) (F F' : Forest ρ κ) (r : ρ) (path : List κ) (n : Nat) : Prop where
  distinct : Distinct depth F
  len : path.length ≤ depth r
  absent : F.value r path = 0
  fresh : ¬Points depth F n
  ne : n ≠ 0
  slot : F'.value r path = n
  empty : ∀ k, F'.ent n k = 0
  top : ∀ r', (r' ≠ r ∨ path ≠ []) → F'.top r' = F.top r'
  ent : ∀ b k, b ≠ n → (∀ q, path = k :: q → F.value r q ≠ b) → F'.ent b k = F.ent b k

theorem Adds.value_eq (h : Adds depth F F' r path n) (r' : ρ) (path' : List κ)
    (hlen : path'.length ≤ depth r') :
    F'.value r' path' = n ∧ r' = r ∧ path' = path ∨
      F'.value r' path' = F.value r' path' ∧ ¬(r' = r ∧ path' = path) := by
  induction path' with
  | nil =>
    by_cases hsame : r' = r ∧ [] = path
    · obtain ⟨rfl, rfl⟩ := hsame
      exact .inl ⟨h.slot, rfl, rfl⟩
    · refine .inr ⟨h.top r' ?_, hsame⟩
      by_contra hcon
      rw [not_or, not_not, not_not] at hcon
      exact hsame ⟨hcon.1, hcon.2.symm⟩
  | cons k q ih =>
    have hlt : q.length < depth r' := hlen
    by_cases hsame : r' = r ∧ k :: q = path
    · obtain ⟨rfl, rfl⟩ := hsame
      exact .inl ⟨h.slot, rfl, rfl⟩
    refine .inr ⟨?_, hsame⟩
    rcases ih (Nat.le_of_lt hlt) with ⟨hv, rfl, rfl⟩ | ⟨hv, hne⟩
    · -- Below the new block there is nothing, before and after.
      rw [value_cons_of_eq h.absent, value_cons_of_ne (hv ▸ h.ne), hv, h.empty]
    by_cases h0 : F.value r' q = 0
    · rw [value_cons_of_eq h0, value_cons_of_eq (hv.trans h0)]
    rw [value_cons_of_ne h0, value_cons_of_ne (hv ▸ h0), hv]
    refine h.ent _ k (fun hb => h.fresh ⟨r', q, (Nat.le_of_lt hlt), hb⟩) fun q' hq' hb => ?_
    have hlen' : q'.length ≤ depth r := by
      have := h.len
      rw [hq', List.length_cons] at this
      omega
    obtain ⟨rfl, rfl⟩ := h.distinct r' q r q' (Nat.le_of_lt hlt) hlen' h0 hb.symm
    exact hsame ⟨rfl, hq'.symm⟩

theorem Adds.points_iff (h : Adds depth F F' r path n) (hm : m ≠ 0) :
    Points depth F' m ↔ m = n ∨ Points depth F m := by
  constructor
  · rintro ⟨r', path', hlen, rfl⟩
    rcases h.value_eq r' path' hlen with ⟨hv, -⟩ | ⟨hv, -⟩
    · exact .inl hv
    · exact .inr ⟨r', path', hlen, hv.symm⟩
  · rintro (rfl | ⟨r', path', hlen, rfl⟩)
    · exact ⟨r, path, h.len, h.slot⟩
    · refine ⟨r', path', hlen, ?_⟩
      rcases h.value_eq r' path' hlen with ⟨-, rfl, rfl⟩ | ⟨hv, -⟩
      · exact absurd h.absent hm
      · exact hv

theorem Adds.distinct_after (h : Adds depth F F' r path n) : Distinct depth F' := by
  intro r1 p1 r2 p2 h1 h2 hne heq
  rcases h.value_eq r1 p1 h1 with ⟨hv1, hr1, hp1⟩ | ⟨hv1, -⟩ <;>
    rcases h.value_eq r2 p2 h2 with ⟨hv2, hr2, hp2⟩ | ⟨hv2, -⟩
  · exact ⟨hr1.trans hr2.symm, hp1.trans hp2.symm⟩
  · exact absurd ⟨r2, p2, h2, by rw [← hv2, ← heq, hv1]⟩ h.fresh
  · exact absurd ⟨r1, p1, h1, by rw [← hv1, heq, hv2]⟩ h.fresh
  · rw [hv1] at hne heq
    rw [hv2] at heq
    exact h.distinct r1 p1 r2 p2 h1 h2 hne heq

theorem Adds.of_top (hd : Distinct depth F) (hr : F.top r = 0) (hfresh : ¬Points depth F n)
    (hn : n ≠ 0) (htop : F'.top r = n) (hempty : ∀ k, F'.ent n k = 0)
    (hothers : ∀ r', r' ≠ r → F'.top r' = F.top r') (hent : ∀ b, b ≠ n → F'.ent b = F.ent b) :
    Adds depth F F' r [] n where
  distinct := hd
  len := Nat.zero_le _
  absent := hr
  fresh := hfresh
  ne := hn
  slot := htop
  empty := hempty
  top r' h := hothers r' (h.resolve_right fun h => h rfl)
  ent b k hb _ := congrFun (hent b hb) k

theorem Adds.of_ent (hd : Distinct depth F) (hlen : path.length < depth r) (hb : F.value r path ≠ 0)
    (hk : F.ent (F.value r path) k = 0) (hfresh : ¬Points depth F n) (hn : n ≠ 0)
    (htop : F'.top = F.top) (hempty : ∀ k, F'.ent n k = 0) (hslot : F'.ent (F.value r path) k = n)
    (hent : ∀ b' k', b' ≠ n → ¬(b' = F.value r path ∧ k' = k) → F'.ent b' k' = F.ent b' k') :
    Adds depth F F' r (k :: path) n where
  distinct := hd
  len := hlen
  absent := by rw [value_cons_of_ne hb, hk]
  fresh := hfresh
  ne := hn
  slot := by
    -- The blocks on the way to the new pointer are other ones than its own.
    have hpath : F'.value r path = F.value r path := by
      refine @value_congr ρ κ F F' (fun _ => path.length) r path (by rw [htop])
        (fun q hq h0 k' => ?_) (Nat.le_refl _)
      have hqlen : q.length ≤ depth r := Nat.le_of_lt (Nat.lt_trans hq hlen)
      refine hent _ _ (fun h => hfresh ⟨r, q, hqlen, h⟩) fun h => ?_
      obtain ⟨-, rfl⟩ := hd r q r path hqlen (Nat.le_of_lt hlen) h0 h.1
      exact Nat.lt_irrefl _ hq
    rw [value_cons_of_ne (hpath ▸ hb), hpath, hslot]
  empty := hempty
  top r' _ := by rw [htop]
  ent b' k' hb' hne := hent b' k' hb' fun h => hne path (by rw [h.2]) h.1.symm

/-- The blocks in the tree below a slot, with the one the slot points to. -/
def Below (depth : ρ → Nat) (F : Forest ρ κ) (r : ρ) (path : List κ) (n : Nat) : Prop :=
  n ≠ 0 ∧ ∃ q, (q ++ path).length ≤ depth r ∧ F.value r (q ++ path) = n

theorem Below.points (h : Below depth F r path n) : Points depth F n := by
  obtain ⟨-, q, hlen, hv⟩ := h
  exact ⟨r, q ++ path, hlen, hv⟩

theorem value_append_of_eq (h : F.value r path = 0) (q : List κ) : F.value r (q ++ path) = 0 := by
  induction q with
  | nil => exact h
  | cons k q ih => exact value_cons_of_eq ih

theorem not_below_of_eq (h : F.value r path = 0) : ¬Below depth F r path n := by
  rintro ⟨hn, q, -, hv⟩
  exact hn (hv.symm.trans (value_append_of_eq h q))

/-- The tree below a slot is its block and the trees below its entries. -/
theorem below_iff (hlen : path.length ≤ depth r) (hv : F.value r path ≠ 0) :
    Below depth F r path n ↔
      n = F.value r path ∨ path.length < depth r ∧ ∃ k, Below depth F r (k :: path) n := by
  constructor
  · rintro ⟨hn, q, hq, rfl⟩
    rcases List.eq_nil_or_concat q with rfl | ⟨q, k, rfl⟩
    · exact .inl rfl
    · rw [List.concat_eq_append, List.append_assoc, List.singleton_append] at hq hn ⊢
      refine .inr ⟨?_, k, hn, q, hq, rfl⟩
      rw [List.length_append, List.length_cons] at hq
      omega
  · rintro (rfl | ⟨-, k, hn, q, hq, hqv⟩)
    · exact ⟨hv, [], hlen, rfl⟩
    · refine ⟨hn, q ++ [k], ?_, ?_⟩
      · rwa [List.append_assoc, List.singleton_append]
      · rwa [List.append_assoc, List.singleton_append]

/-- Trees below two roots, or two slots apart, have no block in common. -/
theorem Below.slot_eq (hd : Distinct depth F) {r' : ρ} {path' : List κ}
    (h : Below depth F r path n) (h' : Below depth F r' path' n)
    (hlen : path.length = path'.length) : r = r' ∧ path = path' := by
  obtain ⟨hn, q, hq, hv⟩ := h
  obtain ⟨-, q', hq', hv'⟩ := h'
  obtain ⟨rfl, hpath⟩ := hd r (q ++ path) r' (q' ++ path') hq hq' (hv ▸ hn) (hv.trans hv'.symm)
  exact ⟨rfl, (List.append_inj' hpath hlen).2⟩

theorem not_below_cons (hd : Distinct depth F) (hlen : path.length ≤ depth r)
    (hv : F.value r path ≠ 0) : ¬Below depth F r (k :: path) (F.value r path) := by
  rintro ⟨-, q, hq, hqv⟩
  obtain ⟨-, hpath⟩ := hd r path r (q ++ k :: path) hlen hq hv hqv.symm
  have := congrArg List.length hpath
  rw [List.length_append, List.length_cons] at this
  omega

/-- The loss of some roots, after which the blocks below them can change. -/
structure Drops (depth : ρ → Nat) (F F' : Forest ρ κ) (gone : ρ → Prop) : Prop where
  distinct : Distinct depth F
  top_gone : ∀ r, gone r → F'.top r = 0
  top_kept : ∀ r, ¬gone r → F'.top r = F.top r
  ent : ∀ b k, (∀ r path, gone r → path.length ≤ depth r → F.value r path ≠ b) →
    F'.ent b k = F.ent b k

section
variable (h : Drops depth F F' gone)
include h

theorem Drops.value_gone (hr : gone r) :
    F'.value r path = 0 := by
  induction path with
  | nil => exact h.top_gone r hr
  | cons k path ih => exact value_cons_of_eq ih

theorem Drops.value_kept (hr : ¬gone r)
    (hlen : path.length ≤ depth r) : F'.value r path = F.value r path := by
  refine value_congr (h.top_kept r hr) (fun q hq h0 k => h.ent _ k fun r' q' hr' hq' hv => ?_) hlen
  obtain ⟨rfl, -⟩ := h.distinct r q r' q' (Nat.le_of_lt hq) hq' h0 hv.symm
  exact hr hr'

theorem Drops.points_iff (hm : m ≠ 0) :
    Points depth F' m ↔ Points depth F m ∧
      ∀ r path, gone r → path.length ≤ depth r → F.value r path ≠ m := by
  constructor
  · rintro ⟨r, path, hlen, rfl⟩
    have hr : ¬gone r := fun hr => hm (h.value_gone hr)
    have hv := h.value_kept hr hlen
    refine ⟨⟨r, path, hlen, hv.symm⟩, fun r' path' hr' hlen' heq => ?_⟩
    rw [hv] at heq hm
    obtain ⟨rfl, -⟩ := h.distinct r path r' path' hlen hlen' hm heq.symm
    exact hr hr'
  · rintro ⟨⟨r, path, hlen, rfl⟩, hnot⟩
    have hr : ¬gone r := fun hr => hnot r path hr hlen rfl
    exact ⟨r, path, hlen, h.value_kept hr hlen⟩

theorem Drops.distinct_after :
    Distinct depth F' := by
  intro r1 p1 r2 p2 h1 h2 hne heq
  have hr1 : ¬gone r1 := fun hr => hne (h.value_gone hr)
  have hr2 : ¬gone r2 := fun hr => hne (heq.trans (h.value_gone hr))
  rw [h.value_kept hr1 h1] at hne heq
  rw [h.value_kept hr2 h2] at heq
  exact h.distinct r1 p1 r2 p2 h1 h2 hne heq

end

end Forest

end Linux001.ProofKit
