import Linux001.ProofKit.Sizes

/-! A ring buffer of `n` cells with a head, where elements are put, and a tail, where they are
taken.  It holds at most `n - 1` elements: head and tail are equal when it is empty. -/

namespace Linux001.ProofKit

open Function

structure RingBuffer (α : Type*) (n : Nat) where
  buf : Nat → α
  head : Nat
  tail : Nat
  head_lt : head < n
  tail_lt : tail < n

namespace RingBuffer

variable {α : Type*} {n : Nat} (r : RingBuffer α n)

theorem pos (r : RingBuffer α n) : 0 < n := Nat.lt_of_le_of_lt (Nat.zero_le _) r.head_lt

def size : Nat := (r.head + n - r.tail) % n

def contents : List α := (List.range r.size).map fun k => r.buf ((r.tail + k) % n)

def push (x : α) : RingBuffer α n :=
  { r with
    buf := update r.buf r.head x
    head := (r.head + 1) % n
    head_lt := Nat.mod_lt _ r.pos }

def first : α := r.buf r.tail

def pop : RingBuffer α n :=
  { r with
    tail := (r.tail + 1) % n
    tail_lt := Nat.mod_lt _ r.pos }

def last : α := r.buf ((r.head + n - 1) % n)

def unpush : RingBuffer α n :=
  { r with
    head := (r.head + n - 1) % n
    head_lt := Nat.mod_lt _ r.pos }

def empty (hn : 0 < n) (buf : Nat → α) : RingBuffer α n := ⟨buf, 0, 0, hn, hn⟩

theorem mod_cases {i : Nat} (h : i < 2 * n) : i % n = i ∧ i < n ∨ i % n + n = i ∧ n ≤ i := by
  by_cases hlt : i < n
  · exact .inl ⟨Nat.mod_eq_of_lt hlt, hlt⟩
  · right
    have hmod : i % n = i - n := by
      rw [Nat.mod_eq_sub_mod (by omega)]
      exact Nat.mod_eq_of_lt (by omega)
    omega

theorem size_lt : r.size < n := Nat.mod_lt _ r.pos

theorem tail_add_size : r.tail + r.size = r.head ∨ r.tail + r.size = r.head + n := by
  have hhead := r.head_lt
  have htail := r.tail_lt
  have hsize : (r.head + n - r.tail) % n = r.size := rfl
  have hmod := mod_cases (n := n) (i := r.head + n - r.tail) (by omega)
  omega

theorem bounds : r.head < n ∧ r.tail < n ∧ r.size < n ∧
    (r.tail + r.size = r.head ∨ r.tail + r.size = r.head + n) :=
  ⟨r.head_lt, r.tail_lt, r.size_lt, r.tail_add_size⟩

@[simp] theorem length_contents : r.contents.length = r.size := by simp [contents]

theorem size_eq_zero_iff : r.size = 0 ↔ r.head = r.tail := by
  have hbounds := r.bounds
  omega

theorem left_eq : (r.tail + n - r.head - 1) % n = n - 1 - r.size := by
  have hbounds := r.bounds
  have hmod := mod_cases (n := n) (i := r.tail + n - r.head - 1) (by omega)
  omega

theorem size_push (x : α) : (r.push x).size = if r.size + 1 < n then r.size + 1 else 0 := by
  have hbounds := r.bounds
  have hsize' : r.tail + (r.push x).size = (r.head + 1) % n ∨
      r.tail + (r.push x).size = (r.head + 1) % n + n := (r.push x).tail_add_size
  have hlt' := (r.push x).size_lt
  have hmod := mod_cases (n := n) (i := r.head + 1) (by omega)
  split
  · omega
  · omega

theorem size_pop (h : 0 < r.size) : r.pop.size = r.size - 1 := by
  have hbounds := r.bounds
  have hsize' : (r.tail + 1) % n + r.pop.size = r.head ∨
      (r.tail + 1) % n + r.pop.size = r.head + n := r.pop.tail_add_size
  have hlt' := r.pop.size_lt
  have hmod := mod_cases (n := n) (i := r.tail + 1) (by omega)
  omega

theorem size_unpush (h : 0 < r.size) : r.unpush.size = r.size - 1 := by
  have hbounds := r.bounds
  have hsize' : r.tail + r.unpush.size = (r.head + n - 1) % n ∨
      r.tail + r.unpush.size = (r.head + n - 1) % n + n := r.unpush.tail_add_size
  have hlt' := r.unpush.size_lt
  have hmod := mod_cases (n := n) (i := r.head + n - 1) (by omega)
  omega

theorem head_eq : r.head = (r.tail + r.size) % n := by
  have hbounds := r.bounds
  have hmod := mod_cases (n := n) (i := r.tail + r.size) (by omega)
  omega

theorem cell_ne_head {k : Nat} (hk : k < r.size) : (r.tail + k) % n ≠ r.head := by
  have hbounds := r.bounds
  have hmod := mod_cases (n := n) (i := r.tail + k) (by omega)
  omega

theorem contents_push {x : α} (h : r.size + 1 < n) : (r.push x).contents = r.contents ++ [x] := by
  have hsize : (r.push x).size = r.size + 1 := by rw [size_push, if_pos h]
  rw [contents, hsize, List.range_succ, List.map_append, List.map_singleton]
  congr 1
  · refine List.map_congr_left fun k hk => ?_
    exact update_of_ne (r.cell_ne_head (List.mem_range.mp hk)) ..
  · show [update r.buf r.head x ((r.tail + r.size) % n)] = [x]
    rw [← r.head_eq, update_self]

theorem contents_eq_cons (h : 0 < r.size) : r.contents = r.first :: r.pop.contents := by
  obtain ⟨m, hm⟩ := Nat.exists_eq_succ_of_ne_zero (Nat.pos_iff_ne_zero.mp h)
  have hpop : r.pop.size = m := by
    rw [r.size_pop h, hm]
    rfl
  rw [contents, contents, hm, hpop, List.range_succ_eq_map, List.map_cons, List.map_map]
  congr 1
  · show r.buf ((r.tail + 0) % n) = r.buf r.tail
    rw [Nat.add_zero, Nat.mod_eq_of_lt r.tail_lt]
  · refine List.map_congr_left fun k _ => ?_
    show r.buf ((r.tail + (k + 1)) % n) = r.buf (((r.tail + 1) % n + k) % n)
    rw [Nat.mod_add_mod, Nat.add_assoc, Nat.add_comm 1 k]

/-- The ring from its first element on, if its contents start with `x`. -/
theorem contents_of_starts {x : α} {l : List α} (h : x :: l <+: r.contents) :
    r.contents = x :: r.pop.contents ∧ l <+: r.pop.contents := by
  have hpos : 0 < r.size := by
    have hle := h.length_le
    rw [List.length_cons, length_contents] at hle
    omega
  rw [r.contents_eq_cons hpos, List.cons_prefix_cons] at h
  obtain ⟨rfl, hl⟩ := h
  exact ⟨r.contents_eq_cons hpos, hl⟩

theorem contents_eq_concat (h : 0 < r.size) : r.contents = r.unpush.contents ++ [r.last] := by
  obtain ⟨m, hm⟩ := Nat.exists_eq_succ_of_ne_zero (Nat.pos_iff_ne_zero.mp h)
  have hunpush : r.unpush.size = m := by
    rw [r.size_unpush h, hm]
    rfl
  have hcell : r.unpush.head = (r.tail + m) % n := by
    rw [r.unpush.head_eq, hunpush]
    rfl
  rw [contents, contents, hm, hunpush, List.range_succ, List.map_append, List.map_singleton,
    ← hcell]
  rfl

theorem contents_eq_nil (h : r.head = r.tail) : r.contents = [] := by
  rw [← List.length_eq_zero_iff, length_contents, size_eq_zero_iff]
  exact h

@[simp] theorem contents_empty (hn : 0 < n) (buf : Nat → α) : (empty hn buf).contents = [] :=
  contents_eq_nil _ rfl

end RingBuffer

end Linux001.ProofKit
