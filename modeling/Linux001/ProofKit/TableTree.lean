import Linux001.ProofKit.Sizes

/-! Trees of tables in a memory.  `walk child mem root path` follows the indices of `path`, the last
one first, from table to table; `child` reads the next table off an entry.  The lemmas say what a
store to an entry does to the tree. -/

namespace Linux001.ProofKit

open Function

variable {F I W : Type*} {child : W → Option F} {mem mem' : F → I → W} {root : F} {n : Nat}

def walk (child : W → Option F) (mem : F → I → W) (root : F) : List I → Option F
  | [] => some root
  | i :: path => (walk child mem root path).bind fun t => child (mem t i)

def IsTable (child : W → Option F) (mem : F → I → W) (root : F) (n : Nat) (t : F) : Prop :=
  ∃ path, path.length ≤ n ∧ walk child mem root path = some t

/-- No table down to depth `n` is reached by two paths. -/
def IsTree (child : W → Option F) (mem : F → I → W) (root : F) (n : Nat) : Prop :=
  ∀ p q t, p.length ≤ n → q.length ≤ n → walk child mem root p = some t →
    walk child mem root q = some t → p = q

@[simp] theorem walk_nil : walk child mem root [] = some root := rfl

@[simp] theorem walk_cons (i : I) (path : List I) :
    walk child mem root (i :: path) = (walk child mem root path).bind fun t => child (mem t i) :=
      rfl

/-- Only entries above depth `n` matter to the tables down to depth `n`. -/
theorem walk_congr (h : ∀ q t, q.length < n → walk child mem root q = some t → mem' t = mem t) :
    ∀ q : List I, q.length ≤ n → walk child mem' root q = walk child mem root q := by
  intro q hq
  induction q with
  | nil => rfl
  | cons i q ih =>
    have hlt : q.length < n := hq
    rw [walk_cons, walk_cons, ih (Nat.le_of_lt hlt)]
    cases hw : walk child mem root q with
    | none => rfl
    | some t => rw [Option.bind_some, Option.bind_some, h q t hlt hw]

theorem IsTree.congr (h : IsTree child mem root n)
    (hw : ∀ q : List I, q.length ≤ n → walk child mem' root q = walk child mem root q) :
    IsTree child mem' root n := by
  intro p q t hp hq hpt hqt
  rw [hw p hp] at hpt
  rw [hw q hq] at hqt
  exact h p q t hp hq hpt hqt

theorem isTable_congr
    (hw : ∀ q : List I, q.length ≤ n → walk child mem' root q = walk child mem root q) (t : F) :
    IsTable child mem' root n t ↔ IsTable child mem root n t := by
  refine exists_congr fun q => and_congr_right fun hq => ?_
  rw [hw q hq]

section Store

variable {t f : F} {path : List I}

theorem walk_update_page [DecidableEq F] {page : I → W} (hf : ¬IsTable child mem root n f) :
    ∀ q : List I, q.length ≤ n → walk child (update mem f page) root q = walk child mem root q :=
  walk_congr fun q u hq hu => update_of_ne (by
    rintro rfl
    exact hf ⟨q, Nat.le_of_lt hq, hu⟩) _ _

/-- The entries of a table at depth `n` are not part of the tree above them. -/
theorem walk_update_leaf [DecidableEq F] {table : I → W} (htree : IsTree child mem root n)
    (hlen : path.length = n) (ht : walk child mem root path = some t) :
    ∀ q : List I, q.length ≤ n → walk child (update mem t table) root q = walk child mem root q :=
  walk_congr fun q u hq hu => update_of_ne (by
    rintro rfl
    have hqp : q = path := htree q path u (Nat.le_of_lt hq) (Nat.le_of_eq hlen) hu ht
    rw [hqp, hlen] at hq
    exact Nat.lt_irrefl n hq) _ _

/-- What it takes to link the empty table `f` at entry `i` of table `t`. -/
structure Links (child : W → Option F) (mem mem' : F → I → W) (root : F) (n : Nat) (path : List I)
    (t : F) (i : I) (f : F) : Prop where
  tree : IsTree child mem root n
  depth : path.length < n
  parent : walk child mem root path = some t
  absent : child (mem t i) = none
  fresh : ¬IsTable child mem root n f
  entry : child (mem' t i) = some f
  empty : ∀ j, child (mem' f j) = none
  other : ∀ u j, u ≠ f → (u ≠ t ∨ j ≠ i) → mem' u j = mem u j

namespace Links

variable {i : I}

section
variable (h : Links child mem mem' root n path t i f)
include h

theorem parent_ne : t ≠ f := by
  rintro rfl
  exact h.fresh ⟨path, Nat.le_of_lt h.depth, h.parent⟩

theorem walk_eq [DecidableEq I] :
    ∀ q : List I, q.length ≤ n →
      walk child mem' root q = if q = i :: path then some f else walk child mem root q := by
  intro q hq
  induction q with
  | nil => simp
  | cons j q ih =>
    have hlt : q.length < n := hq
    rw [walk_cons, walk_cons, ih (Nat.le_of_lt hlt)]
    by_cases hqi : q = i :: path
    · -- below the new table there is nothing, before and after
      have hbefore : walk child mem root q = none := by
        rw [hqi, walk_cons, h.parent, Option.bind_some, h.absent]
      have hne : j :: q ≠ i :: path := fun heq => by
        have := congrArg List.length heq
        simp [hqi] at this
      rw [if_pos hqi, if_neg hne, hbefore, Option.bind_some, Option.bind_none, h.empty]
    · rw [if_neg hqi]
      cases hw : walk child mem root q with
      | none =>
        have hne : j :: q ≠ i :: path := by
          rintro ⟨-, rfl⟩
          rw [h.parent] at hw
          cases hw
        rw [if_neg hne, Option.bind_none, Option.bind_none]
      | some u =>
        have huf : u ≠ f := by
          rintro rfl
          exact h.fresh ⟨q, Nat.le_of_lt hlt, hw⟩
        rw [Option.bind_some, Option.bind_some]
        by_cases hji : j :: q = i :: path
        · obtain ⟨rfl, rfl⟩ := List.cons.inj hji
          obtain rfl : t = u := Option.some.inj (h.parent.symm.trans hw)
          rw [if_pos rfl, h.entry]
        rw [if_neg hji, h.other u j huf]
        by_contra hcon
        rw [not_or, not_not, not_not] at hcon
        obtain ⟨rfl, rfl⟩ := hcon
        have hqp : q = path :=
          h.tree q path u (Nat.le_of_lt hlt) (Nat.le_of_lt h.depth) hw h.parent
        exact hji (by rw [hqp])

theorem isTable_iff [DecidableEq I] (u : F) :
    IsTable child mem' root n u ↔ u = f ∨ IsTable child mem root n u := by
  constructor
  · rintro ⟨q, hq, hu⟩
    rw [h.walk_eq q hq] at hu
    split at hu
    · exact .inl (Option.some.inj hu).symm
    · exact .inr ⟨q, hq, hu⟩
  · rintro (rfl | ⟨q, hq, hu⟩)
    · refine ⟨i :: path, h.depth, ?_⟩
      rw [h.walk_eq (i :: path) h.depth, if_pos rfl]
    · refine ⟨q, hq, ?_⟩
      rw [h.walk_eq q hq, if_neg, hu]
      rintro rfl
      rw [walk_cons, h.parent, Option.bind_some, h.absent] at hu
      cases hu

theorem isTree [DecidableEq I] :
    IsTree child mem' root n := by
  intro p q u hp hq hpu hqu
  rw [h.walk_eq p hp] at hpu
  rw [h.walk_eq q hq] at hqu
  split at hpu <;> split at hqu
  · rename_i hpi hqi
    rw [hpi, hqi]
  · exact absurd ⟨q, hq, (Option.some.inj hpu) ▸ hqu⟩ h.fresh
  · exact absurd ⟨p, hp, (Option.some.inj hqu) ▸ hpu⟩ h.fresh
  · exact h.tree p q u hp hq hpu hqu

end

end Links

end Store

end Linux001.ProofKit
