import Linux001.ProofKit.Sizes

/-! Lists linked by a `next` function: `Chain next p xs` says that the links from `p` on are `xs`
and then end. The lemmas say what an assignment to a link does to the list. -/

namespace Linux001.ProofKit

open Function

variable {α : Type*} {next next' : α → Option α} {p : Option α} {a b : α} {xs ys : List α}
  {o : Option α}

/-- The links from `p` on are `xs`. -/
inductive Chain (next : α → Option α) : Option α → List α → Prop
  | nil : Chain next none []
  | cons {a : α} {xs : List α} (h : Chain next (next a) xs) : Chain next (some a) (a :: xs)

namespace Chain

theorem head?_eq (h : Chain next p xs) : xs.head? = p := by
  cases h <;> rfl

theorem eq_nil (h : Chain next none xs) : xs = [] := by
  cases h
  rfl

theorem some_inv (h : Chain next (some a) xs) : ∃ ys, xs = a :: ys ∧ Chain next (next a) ys := by
  cases h with
  | cons h => exact ⟨_, rfl, h⟩

theorem congr (h : Chain next p xs) (heq : ∀ a ∈ xs, next' a = next a) : Chain next' p xs := by
  induction h with
  | nil => exact .nil
  | @cons a xs _ ih =>
    refine .cons ?_
    rw [heq a (by simp)]
    exact ih fun b hb => heq b (List.mem_cons_of_mem _ hb)

theorem update [DecidableEq α] (h : Chain next p xs) (ha : a ∉ xs) :
    Chain (update next a o) p xs :=
  h.congr fun _ hb => update_of_ne (ne_of_mem_of_not_mem hb ha) _ _

theorem of_append (h : Chain next p (xs ++ a :: ys)) : Chain next (next a) ys := by
  induction xs generalizing p with
  | nil => cases h; assumption
  | cons b xs ih =>
    cases h with
    | cons h => exact ih h

theorem splice [DecidableEq α] {zs : List α} (h : Chain next p (xs ++ a :: ys))
    (ha : a ∉ xs) (hz : Chain (Function.update next a o) o zs) :
    Chain (Function.update next a o) p (xs ++ a :: zs) := by
  induction xs generalizing p with
  | nil =>
    cases h
    refine .cons ?_
    rw [update_self]
    exact hz
  | cons b xs ih =>
    cases h with
    | cons h =>
      refine .cons ?_
      rw [update_of_ne (ne_of_mem_of_not_mem List.mem_cons_self ha)]
      exact ih h (fun hmem => ha (List.mem_cons_of_mem _ hmem))

/-- `b->next = a->next; a->next = b` puts `b` after `a`. -/
theorem insert_after [DecidableEq α] (h : Chain next p (xs ++ a :: ys))
    (hnd : (xs ++ a :: ys).Nodup) (hb : b ∉ xs ++ a :: ys) (hnext : next b = next a) :
    Chain (Function.update next a (some b)) p (xs ++ a :: b :: ys) := by
  have hxs : a ∉ xs := fun hmem =>
    (List.nodup_append.mp hnd).2.2 a hmem a List.mem_cons_self rfl
  have hys : a ∉ ys := (List.nodup_cons.mp (List.nodup_append.mp hnd).2.1).1
  have hba : b ≠ a := by
    rintro rfl
    exact hb (by simp)
  refine h.splice hxs (.cons ?_)
  rw [update_of_ne hba, hnext]
  exact h.of_append.update hys

theorem next_eq_none (h : Chain next p (xs ++ [a])) : next a = none :=
  (of_append h).head?_eq.symm

theorem next_mem (h : Chain next p xs) (ha : a ∈ xs) (hn : next a = some b) :
    b ∈ xs.tail := by
  obtain ⟨l, r, rfl⟩ := List.append_of_mem ha
  have hr := h.of_append
  rw [hn] at hr
  obtain ⟨zs, rfl, -⟩ := hr.some_inv
  cases l <;> simp

end Chain

/-- `a` is reached from `p` along the links. -/
inductive Leads (next : α → Option α) : Option α → α → Prop
  | here (a : α) : Leads next (some a) a
  | there {a b : α} (h : Leads next (next a) b) : Leads next (some a) b

theorem Chain.leads (h : Chain next p xs) (ha : a ∈ xs) : Leads next p a := by
  induction h with
  | nil => simp at ha
  | cons _ ih =>
    rcases List.mem_cons.mp ha with rfl | ha
    · exact .here _
    · exact .there (ih ha)

theorem not_leads_none (a : α) : ¬Leads next none a := nofun

theorem Leads.mono (h : Leads next p a) (hnext : ∀ b c, next b = some c → next' b = some c) :
    Leads next' p a := by
  induction h with
  | here a => exact .here a
  | @there b c h ih =>
    refine .there ?_
    cases hb : next b with
    | none =>
      rw [hb] at h
      exact absurd h (not_leads_none _)
    | some d =>
      rw [hb] at ih
      rw [hnext b d hb]
      exact ih

/-- What is reached along the link of `b` is reached without it or from its target. -/
theorem Leads.cut [DecidableEq α] (h : Leads next p a) (b : α) :
    Leads (update next b none) p a ∨ Leads (update next b none) (next b) a := by
  induction h with
  | here a => exact .inl (.here a)
  | @there c d h ih =>
    rcases ih with ih | ih
    · by_cases hcb : c = b
      · exact .inr (hcb ▸ ih)
      · refine .inl (.there ?_)
        rwa [update_of_ne hcb]
    · exact .inr ih

end Linux001.ProofKit
