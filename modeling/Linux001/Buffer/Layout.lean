import Linux001.Buffer.Representation

/-! `buffer_init` on addresses: the buffer heads go up from the end of the kernel, and their data
areas go down from `BUFFER_END` and over the hole for the video memory and the BIOS. -/

namespace Linux001.Buffer.Layout

open Function ProofKit

def bufferEnd : Nat := 0x200000

/-- `sizeof (struct buffer_head)`. -/
def headSize : Nat := 56

/-- The buffer heads, one function of the address for each field. -/
structure Pool where
  (bData bDev bDirt bCount bLock bUptodate bPrevFree bNextFree : Nat → Nat)
  (bWait bPrev bNext hashTable : Nat → Option Nat)
  (nrBuffers freeList : Nat)
deriving Inhabited

def Pool.addHead (s : Pool) (h b : Nat) : Pool :=
  { s with
    bDev := update s.bDev h 0
    bDirt := update s.bDirt h 0
    bCount := update s.bCount h 0
    bLock := update s.bLock h 0
    bUptodate := update s.bUptodate h 0
    bWait := update s.bWait h none
    bNext := update s.bNext h none
    bPrev := update s.bPrev h none
    bData := update s.bData h b
    bPrevFree := update s.bPrevFree h (h - headSize)
    bNextFree := update s.bNextFree h (h + headSize)
    nrBuffers := s.nrBuffers + 1 }

def addHeads : (fuel h b : Nat) → Pool → Option (Nat × Pool)
  | 0, _, _, _ => none
  | fuel + 1, h, b, s =>
    let b := b - 1024
    if h + headSize ≤ b then
      addHeads fuel (h + headSize) (if b = 0x100000 then 0xa0000 else b) (s.addHead h b)
    else some (h, s)

def Pool.close (s : Pool) (start h : Nat) : Pool :=
  { s with
    freeList := start
    bPrevFree := update s.bPrevFree start h
    bNextFree := update s.bNextFree h start
    hashTable := fun i => if i < nrHash then none else s.hashTable i }

/-- `buffer_init` where the kernel ends at `start`; `NR_BUFFERS` is 0 before. -/
def bufferInit (fuel start : Nat) (s : Pool) : Option Pool :=
  (addHeads fuel start bufferEnd { s with nrBuffers := 0 }).map fun (h, s) =>
    s.close start (h - headSize)

def headAt (start i : Nat) : Nat := start + headSize * i

/-- The pointer `b` before the round for buffer `i`. -/
def cursor (i : Nat) : Nat := 1024 * if i < 1024 then 2048 - i else 1664 - i

def area (i : Nat) : Nat := cursor i - 1024

def heads (start : Nat) (s : Pool) : List Nat := (List.range s.nrBuffers).map (headAt start)

/-- The data areas are in usable memory, apart from the heads, which are one ring. -/
structure Laid (start : Nat) (s : Pool) : Prop where
  usable : ∀ h ∈ heads start s, start ≤ s.bData h ∧ s.bData h + 1024 ≤ 0xa0000 ∨
    0x100000 ≤ s.bData h ∧ s.bData h + 1024 ≤ bufferEnd
  disjoint : ∀ h ∈ heads start s, ∀ h' ∈ heads start s, h ≠ h' →
    s.bData h + 1024 ≤ s.bData h' ∨ s.bData h' + 1024 ≤ s.bData h
  apart : ∀ h ∈ heads start s, ∀ h' ∈ heads start s, h + headSize ≤ s.bData h'
  first : s.freeList = start ∧ start ∈ heads start s
  ring : Ring s.bNextFree s.bPrevFree (heads start s)
  nodup : (heads start s).Nodup
  hash : ∀ i < nrHash, s.hashTable i = none

variable {start i j n fuel : Nat} {s : Pool}

theorem headAt_injective (h : headAt start i = headAt start j) : i = j := by
  unfold headAt headSize at h
  omega

theorem cursor_succ : cursor (i + 1) = if area i = 0x100000 then 0xa0000 else area i := by
  unfold area cursor
  split_ifs <;> omega

/-- The first `i` heads are filled, each before its data area. -/
structure Filled (start i : Nat) (s : Pool) : Prop where
  count : s.nrBuffers = i
  fits : ∀ j < i, headAt start (j + 1) ≤ area j
  data : ∀ j < i, s.bData (headAt start j) = area j
  next : ∀ j < i, s.bNextFree (headAt start j) = headAt start (j + 1)
  prev : ∀ j < i, s.bPrevFree (headAt start j) = headAt start j - headSize

theorem Filled.addHead (h : Filled start i s) (hfit : headAt start (i + 1) ≤ area i) :
    Filled start (i + 1) (s.addHead (headAt start i) (area i)) := by
  have hlast : ∀ {j}, j < i + 1 → j ≠ i → j < i ∧ headAt start j ≠ headAt start i :=
    fun hj hne => ⟨by omega, mt headAt_injective hne⟩
  refine ⟨congrArg (· + 1) h.count, fun j hj => ?_, fun j hj => ?_, fun j hj => ?_,
    fun j hj => ?_⟩
  all_goals
    by_cases hji : j = i
    · subst hji
      first
        | exact hfit
        | simp [Pool.addHead, headAt, Nat.mul_add, Nat.add_assoc]
    · obtain ⟨hlt, hne⟩ := hlast hj hji
      simp [Pool.addHead, hne, h.fits j hlt, h.data j hlt, h.next j hlt, h.prev j hlt]

theorem Filled.le (h : Filled start i s) : i ≤ 1664 := by
  by_contra hlt
  have := h.fits (i - 1) (by omega)
  unfold headAt headSize area cursor at this
  split at this <;> omega

theorem addHeads_filled {d : Nat} (h : Filled start i s) (hd : i + d = 1665) :
    ∃ n t, Filled start n t ∧ ¬headAt start (n + 1) ≤ area n ∧
      ∀ fuel ≥ d, addHeads fuel (headAt start i) (cursor i) s = some (headAt start n, t) := by
  induction d generalizing i s with
  | zero =>
    have := h.le
    omega
  | succ d ih =>
    by_cases hfit : headAt start (i + 1) ≤ area i
    · obtain ⟨n, t, hn, hfull, hrun⟩ := ih (h.addHead hfit) (by omega)
      refine ⟨n, t, hn, hfull, fun fuel hfuel => ?_⟩
      obtain ⟨fuel, rfl⟩ := Nat.exists_eq_add_of_le' hfuel
      have hrest := hrun (fuel + d) (by omega)
      rw [cursor_succ] at hrest
      rw [← Nat.add_assoc, addHeads]
      exact (if_pos hfit).trans hrest
    · refine ⟨i, s, h, hfit, fun fuel hfuel => ?_⟩
      obtain ⟨fuel, rfl⟩ := Nat.exists_eq_add_of_le' hfuel
      rw [← Nat.add_assoc, addHeads]
      exact if_neg hfit

theorem area_lt (hj : j < i) (hi : i < 1664) : area i + 1024 ≤ area j := by
  unfold area cursor
  split_ifs <;> omega

theorem Filled.ring (h : Filled start n s) (hn : 0 < n) :
    Ring (update s.bNextFree (headAt start (n - 1)) start)
      (update s.bPrevFree start (headAt start (n - 1)))
      ((List.range n).map (headAt start)) := by
  refine (Ring.range hn).map (fun a ha => ?_) fun a ha => ?_
  · have hlt := List.mem_range.mp ha
    by_cases hlast : a = n - 1
    · simp [hlast, headAt]
    · rw [update_of_ne (mt headAt_injective hlast), h.next a hlt, if_neg hlast]
  · have hlt := List.mem_range.mp ha
    cases a with
    | zero => simp [headAt]
    | succ a =>
      rw [update_of_ne (by simp [headAt, headSize]), h.prev _ hlt]
      simp [headAt, headSize]
      omega

theorem Filled.laid (h : Filled start n s) (hn : 0 < n) :
    Laid start (s.close start (headAt start (n - 1))) := by
  have hheads : heads start (s.close start (headAt start (n - 1))) =
    (List.range n).map (headAt start) :=
    h.count ▸ rfl
  have hdata : ∀ a ∈ (List.range n).map (headAt start), ∃ i < n, headAt start i = a ∧
    s.bData a = area i := by
    intro a ha
    obtain ⟨i, hi, rfl⟩ := List.mem_map.mp ha
    exact ⟨i, List.mem_range.mp hi, rfl, h.data i (List.mem_range.mp hi)⟩
  have hbelow : ∀ {i j}, i < j → j < n → area j + 1024 ≤ area i := fun hij hj =>
    area_lt hij (Nat.lt_of_lt_of_le hj h.le)
  constructor
  case hash => exact fun i hi => if_pos hi
  all_goals rw [hheads]
  case usable =>
    intro a ha
    obtain ⟨i, hi, -, hai⟩ := hdata a ha
    have hfit := h.fits i hi
    simp only [Pool.close, hai]
    unfold headAt headSize area cursor at *
    unfold bufferEnd
    split_ifs at * <;> omega
  case disjoint =>
    intro a ha b hb hab
    obtain ⟨i, hi, rfl, hai⟩ := hdata a ha
    obtain ⟨j, hj, rfl, hbj⟩ := hdata b hb
    simp only [Pool.close, hai, hbj]
    obtain hij | rfl | hij := Nat.lt_trichotomy i j
    · exact .inr (hbelow hij hj)
    · exact absurd rfl hab
    · exact .inl (hbelow hij hi)
  case apart =>
    intro a ha b hb
    obtain ⟨i, hi, rfl, -⟩ := hdata a ha
    obtain ⟨j, hj, -, hbj⟩ := hdata b hb
    -- every head ends before the last data area, which is the lowest
    have hlast := h.fits (n - 1) (by omega)
    have hdown : area (n - 1) ≤ area j := by
      obtain rfl | hjn := Nat.eq_or_lt_of_le (Nat.le_sub_one_of_lt hj)
      · exact Nat.le_refl _
      · have := hbelow hjn (by omega)
        omega
    simp only [Pool.close, hbj]
    unfold headAt headSize at *
    omega
  case first => exact ⟨rfl, List.mem_map.mpr ⟨0, List.mem_range.mpr hn, rfl⟩⟩
  case ring => exact h.ring hn
  case nodup => exact List.nodup_range.map fun i j => headAt_injective

theorem bufferInit_laid (start : Nat) (hstart : start ≤ 0x90000) (s : Pool) :
    ∃ t, (∀ fuel ≥ 2048, bufferInit fuel start s = some t) ∧ Laid start t := by
  have hempty : Filled start 0 { s with nrBuffers := 0 } := ⟨rfl, nofun, nofun, nofun, nofun⟩
  obtain ⟨n, t, hn, hfull, hrun⟩ := addHeads_filled hempty (Nat.zero_add 1665)
  have hpos : 0 < n := by
    refine Nat.pos_of_ne_zero fun hzero => hfull ?_
    subst hzero
    exact (Nat.add_le_add_right hstart 56).trans (by decide)
  refine ⟨_, fun fuel hfuel => ?_, hn.laid hpos⟩
  have hend : headAt start n - headSize = headAt start (n - 1) := by
    unfold headAt headSize
    omega
  have hloop : addHeads fuel start bufferEnd { s with nrBuffers := 0 } = some (headAt start n, t) :=
    hrun fuel (by omega)
  rw [bufferInit, hloop, ← hend]
  rfl

theorem bufferInit_laid_highest :
    ∃ t, (∀ fuel ≥ 2048, bufferInit fuel 0x90000 default = some t) ∧ Laid 0x90000 t :=
  bufferInit_laid 0x90000 (Nat.le_refl _) default

/-- `buffer_init` makes the free list from which the runs of the cache start. -/
theorem bufferInit_refines {α : Type} (c : Cache α) (hstart : start ≤ 0x90000) (s : Pool) :
    ∃ t n, (∀ fuel ≥ 2048, bufferInit fuel start s = some t) ∧ t.nrBuffers = n ∧ nrTasks < n ∧
      t.freeList = headAt start (boot c n).cache.queues.freeList ∧ ∀ i < n,
        t.bNextFree (headAt start i) = headAt start ((boot c n).cache.queues.bNextFree i) ∧
        t.bPrevFree (headAt start i) = headAt start ((boot c n).cache.queues.bPrevFree i) := by
  have hempty : Filled start 0 { s with nrBuffers := 0 } := ⟨rfl, nofun, nofun, nofun, nofun⟩
  obtain ⟨n, t, hn, hfull, hrun⟩ := addHeads_filled hempty (Nat.zero_add 1665)
  have hmany : nrTasks < n := by
    by_contra hle
    unfold nrTasks headAt headSize area cursor at *
    split at hfull <;> omega
  have hpos : 0 < n := Nat.zero_lt_of_lt hmany
  have hend : headAt start n - headSize = headAt start (n - 1) := by
    unfold headAt headSize
    omega
  refine ⟨t.close start (headAt start (n - 1)), n, fun fuel hfuel => ?_, hn.count, hmany, rfl,
    fun i hi =>
    (Ring.range hpos).of_map (hn.ring hpos) i (List.mem_range.mpr hi)⟩
  rw [bufferInit, show addHeads fuel start bufferEnd _ = _ from hrun fuel (by omega), ← hend]
  rfl

theorem bufferInit_refines_highest : ∃ t n, bufferInit 2048 0x90000 default = some t ∧
    t.nrBuffers = n ∧ nrTasks < n := by
  obtain ⟨t, n, hrun, hn, hmany, -⟩ := bufferInit_refines (blank ()) (Nat.le_refl _) default
  exact ⟨t, n, hrun _ (Nat.le_refl _), hn, hmany⟩

end Linux001.Buffer.Layout
