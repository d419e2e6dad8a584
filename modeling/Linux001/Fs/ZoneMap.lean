import Linux001.Fs.Zones
import Linux001.ProofKit.Hoare

/-! What `new_block` and `free_block` do to the zone bitmaps. -/

namespace Linux001.Fs

open Function ProofKit

section Entries

variable {b : Block} {k k' n : Nat}

@[simp] theorem entry_clearBlock : entry clearBlock k = 0 := rfl

theorem entry_setEntry_self (hn : n < 65536) : entry (setEntry b k n) k = n := by
  have hne : 2 * k ≠ 2 * k + 1 := by omega
  simp only [entry, setEntry, update_self, update_of_ne hne, UInt8.toNat_ofNat']
  omega

theorem entry_setEntry_of_ne (h : k' ≠ k) : entry (setEntry b k n) k' = entry b k' := by
  have h1 : 2 * k' ≠ 2 * k + 1 := by omega
  have h2 : 2 * k' ≠ 2 * k := by omega
  have h3 : 2 * k' + 1 ≠ 2 * k + 1 := by omega
  have h4 : 2 * k' + 1 ≠ 2 * k := by omega
  simp only [entry, setEntry, update_of_ne h1, update_of_ne h2, update_of_ne h3, update_of_ne h4]

end Entries

namespace Zones

variable {z z' : Zones} {n m : Nat} {b : Nat}

def IsData (z : Zones) (n : Nat) : Prop := z.sb.sFirstdatazone ≤ n ∧ n < z.sb.sNzones

def nr (z : Zones) (n : Nat) : Nat := n - (z.sb.sFirstdatazone - 1)

def used (z : Zones) (n : Nat) : Bool :=
  match z.zmap (z.nr n / 8192) with
  | none => false
  | some p => p.bit (z.nr n % 8192)

@[simp] theorem used_hold : (z.hold b).used n = z.used n := rfl

/-- The bit that `do_mount` sets: it stands for no zone of data. -/
def Reserved (z : Zones) : Prop := ∀ p, z.zmap 0 = some p → p.bit 0 = true

theorem IsData.nr_pos (h : z.IsData n) : 0 < z.nr n := by
  have := z.sb.layout
  have := h.1
  unfold nr
  omega

theorem IsData.lt (h : z.IsData n) : n < 65536 := Nat.lt_trans h.2 z.sb.nzones_lt

theorem IsData.ne_zero (h : z.IsData n) : n ≠ 0 := by
  have := z.sb.layout
  have := h.1
  omega

theorem IsData.nr_div_lt (h : z.IsData n) : z.nr n / 8192 < 8 := by
  have := h.lt
  unfold nr
  omega

theorem IsData.nr_inj (hn : z.IsData n) (h : z.nr n = z.nr m) : n = m := by
  have := hn.1
  unfold nr at h
  omega

theorem used_eq_of_zmap {p : Bitmap} (h : z.zmap (z.nr n / 8192) = some p) :
    z.used n = p.bit (z.nr n % 8192) := by
  simp only [used, h]

theorem used_setZmap {i : Nat} {q : Bitmap} :
    (z.setZmap i q).used m =
      if z.nr m / 8192 = i then q.bit (z.nr m % 8192) else z.used m := by
  split
  · rename_i h
    have hq : (z.setZmap i q).zmap ((z.setZmap i q).nr m / 8192) = some q := by
      change update z.zmap i (some q) (z.nr m / 8192) = some q
      rw [h, update_self]
    exact used_eq_of_zmap hq
  · rename_i h
    have hq : (z.setZmap i q).zmap (z.nr m / 8192) = z.zmap (z.nr m / 8192) := update_of_ne h _ _
    change (match (z.setZmap i q).zmap (z.nr m / 8192) with | none => false | some p => _) = _
    rw [hq]
    rfl

structure Allocates (z : Zones) (n : Nat) (z' : Zones) : Prop where
  sb : z'.sb = z.sb
  count : z'.count = z.count
  block : z'.block = update z.block n clearBlock
  reserved : z'.Reserved
  data : z.IsData n
  free : z.used n = false
  used : ∀ m, z.IsData m → z'.used m = (decide (m = n) || z.used m)

def Full (z : Zones) : Prop :=
  ∀ m, z.IsData m → (z.zmap (z.nr m / 8192)).isSome → z.used m = true

structure Exhausted (z z' : Zones) : Prop where
  sb : z'.sb = z.sb
  count : z'.count = z.count
  block : z'.block = z.block
  reserved : z'.Reserved
  full : z'.Full
  used : ∀ m, z.IsData m → z'.used m = z.used m

def SameMaps (z z' : Zones) : Prop := ∀ i, (z'.zmap i).isSome = (z.zmap i).isSome

def Unheld (z : Zones) : Prop := ∀ n, z.IsData n → z.used n = false → z.count n = 0

end Zones

section Buffers

variable {z z' : Zones} {b : Nat} {Q : Unit → Zones → Prop}

@[simp] theorem bread_returns :
    Returns (bread b) z Q ↔ Q () (z.hold b) := returns_modify

theorem brelse_returns (h : z.count b ≠ 0) :
    Returns (brelse b) z Q ↔ Q () (z.release b) := by
  unfold brelse
  rw [returns_bind, returns_get, if_neg h, returns_set]

theorem release_hold_count (h : z'.count = (z.hold b).count) : (z'.release b).count = z.count := by
  rw [Zones.release_count, h, Zones.hold_count, update_self, update_idem, Nat.add_sub_cancel,
    update_eq_self]

@[simp] theorem release_hold : (z.hold b).release b = z := by
  have hcount : ((z.hold b).release b).count = z.count := release_hold_count rfl
  simp only [Zones.release, Zones.hold] at hcount ⊢
  rw [hcount]

theorem count_ne_zero_of_hold (h : z'.count = (z.hold b).count) : z'.count b ≠ 0 := by
  rw [h, Zones.hold_count, update_self]
  exact Nat.succ_ne_zero _

section OnDevice

variable {ε σ α : Type} [OnDevice ε σ] {s s' : σ} {m : ZoneM α} {fails : σ → Bool × σ}

theorem onZones_returns {Q : α → σ → Prop} : Returns (onZones m) s Q ↔
    Returns m (OnDevice.zones s) fun a z => Q a (OnDevice.withZones s z) := by
  unfold Returns onZones
  cases m (OnDevice.zones s) with
  | ok a z => simp
  | error p z => simp

theorem onZones_ensures {Q : α → σ → Prop}
    (h : Ensures m (OnDevice.zones s) fun a z => Q a (OnDevice.withZones s z)) :
    Ensures (onZones m) s Q := by
  intro a t hm
  unfold onZones at hm
  cases hz : m (OnDevice.zones s) with
  | ok a' z =>
    rw [hz] at hm
    cases hm
    exact h a z hz
  | error p z =>
    rw [hz] at hm
    cases hm

/-- A read that succeeds takes a reference to the buffer. -/
theorem breadOr_ok (h : fails s = (false, s')) : breadOr fails b s =
    .ok true (OnDevice.withZones s' ((OnDevice.zones s').hold b)) := by
  unfold breadOr
  rw [get_bind, h]
  rfl

theorem breadOr_failed (h : fails s = (true, s')) : breadOr fails b s = .ok false s' := by
  unfold breadOr
  rw [get_bind, h]
  rfl

/-- A reference that was taken can be given back. -/
theorem onZones_brelse (h : OnDevice.zones s = z.hold b) :
    onZones (brelse b) s = .ok () (OnDevice.withZones s z) := by
  have hz : brelse b (z.hold b) = .ok () z := by
    unfold brelse
    rw [get_bind, if_neg (by simp)]
    show EStateM.Result.ok _ _ = _
    rw [release_hold]
  unfold onZones
  rw [h, hz]

end OnDevice

end Buffers

section NewBlock

open Zones

variable {z : Zones} {map : Nat → Option Bitmap} {i j n m : Nat} {p : Bitmap}

theorem firstZero_eq_some (h : firstZero map = some (i, j, p)) :
    i < 8 ∧ j < 8192 ∧ map i = some p ∧ p.bit j = false ∧ (∀ m < j, p.bit m = true) ∧
      ∀ i' < i, ∀ q, map i' = some q → ∀ m < 8192, q.bit m = true := by
  obtain ⟨i0, hi, hf, hlt⟩ := exists_of_findSome_range h
  obtain ⟨q, hq, hite⟩ := Option.bind_eq_some_iff.mp hf
  rw [Option.ite_none_right_eq_some] at hite
  obtain ⟨hj, heq⟩ := hite
  obtain ⟨rfl, rfl, rfl⟩ : i0 = i ∧ findFirstZero q = j ∧ q = p := by simpa using heq
  obtain ⟨hbit, hlow⟩ := findFirstZero_spec q
  refine ⟨hi, hj, hq, ?_, hlow, fun i' hi' q' hq' m hm => ?_⟩
  · rcases hbit with hbit | hbit
    · exact hbit.2
    · omega
  · have hnone := hlt i' hi'
    rw [hq', Option.bind_some, ite_eq_right_iff] at hnone
    have hge : ¬findFirstZero q' < 8192 := fun hcon => by cases hnone hcon
    exact (findFirstZero_spec q').2 m (by omega)

theorem firstZero_eq_none (h : firstZero map = none) (hi : i < 8) (hp : map i = some p)
    (hj : j < 8192) : p.bit j = true := by
  have hnone := List.findSome?_eq_none_iff.mp h i (List.mem_range.mpr hi)
  rw [hp, Option.bind_some, ite_eq_right_iff] at hnone
  have hge : ¬findFirstZero p < 8192 := fun hcon => by cases hnone hcon
  exact (findFirstZero_spec p).2 j (by omega)

theorem Zones.Reserved.pos (hr : z.Reserved) (hp : z.zmap i = some p) (hbit : p.bit j = false) :
    0 < j + i * 8192 := by
  by_contra hcon
  obtain ⟨rfl, rfl⟩ : i = 0 ∧ j = 0 := by omega
  rw [hr p hp] at hbit
  cases hbit

theorem isSome_setZmap {q : Bitmap} {k : Nat} (hp : z.zmap i = some p) :
    ((z.setZmap i q).zmap k).isSome = (z.zmap k).isSome := by
  by_cases hk : k = i
  · rw [setZmap_zmap, hk, update_self, hp, Option.isSome_some, Option.isSome_some]
  · rw [setZmap_zmap, update_of_ne hk]

theorem used_setZmap_setBit (hp : z.zmap i = some p) (hj : j < 8192) (hm : z.IsData m) :
    (z.setZmap i (setBit j p).2).used m =
      (decide (m = j + i * 8192 + (z.sb.sFirstdatazone - 1)) || z.used m) := by
  have hfirst := hm.1
  rw [used_setZmap]
  split
  · rename_i hdiv
    rw [bit_setBit, used_eq_of_zmap (hdiv ▸ hp)]
    congr 1
    rw [decide_eq_decide]
    unfold nr at hdiv ⊢
    omega
  · rename_i hdiv
    have hne : m ≠ j + i * 8192 + (z.sb.sFirstdatazone - 1) := by
      rintro rfl
      apply hdiv
      unfold nr
      omega
    rw [decide_eq_false hne, Bool.false_or]

theorem Zones.Reserved.setBit (hr : z.Reserved) (hp : z.zmap i = some p) :
    (z.setZmap i (setBit j p).2).Reserved := by
  intro q hq
  by_cases hi : 0 = i
  · subst hi
    have : (Fs.setBit j p).2 = q := by simpa using hq
    rw [← this, bit_setBit, hr p hp, Bool.or_true]
  · rw [setZmap_zmap, update_of_ne hi] at hq
    exact hr q hq

theorem used_of_lt_firstZero (h : firstZero z.zmap = some (i, j, p)) (hm : z.IsData m)
    (hlt : m < j + i * 8192 + (z.sb.sFirstdatazone - 1))
    (hmap : (z.zmap (z.nr m / 8192)).isSome) : z.used m = true := by
  obtain ⟨-, hj, hp, -, hlow, hfull⟩ := firstZero_eq_some h
  obtain ⟨q, hq⟩ := Option.isSome_iff_exists.mp hmap
  rw [used_eq_of_zmap hq]
  have hnr : z.nr m < j + i * 8192 := by
    unfold nr
    have := hm.1
    omega
  by_cases hdiv : z.nr m / 8192 = i
  · obtain rfl : p = q := Option.some.inj (hp.symm.trans (hdiv ▸ hq))
    exact hlow _ (by omega)
  · exact hfull _ (by omega) q hq _ (Nat.mod_lt _ (by decide))

theorem newBlock_returns (hr : z.Reserved) (hu : z.Unheld) :
    Returns newBlock z fun n z' => n = 0 ∧ z.Exhausted z' ∨ z.Allocates n z' := by
  unfold newBlock
  rw [returns_bind, returns_get]
  cases h : firstZero z.zmap with
  | none =>
    refine returns_pure.mpr (.inl ⟨rfl, rfl, rfl, rfl, hr, fun m hm hmap => ?_, fun _ _ => rfl⟩)
    obtain ⟨p, hp⟩ := Option.isSome_iff_exists.mp hmap
    rw [used_eq_of_zmap hp]
    exact firstZero_eq_none h hm.nr_div_lt hp (Nat.mod_lt _ (by decide))
  | some x =>
    obtain ⟨i, j, p⟩ := x
    obtain ⟨-, hj, hp, hbit, -, -⟩ := firstZero_eq_some h
    have hpos := hr.pos hp hbit
    have hused : ∀ m, z.IsData m → _ := fun m hm => used_setZmap_setBit hp hj hm
    refine returns_ite.mpr ⟨fun hset => ?_, fun _ => returns_ite.mpr ⟨fun hge => ?_, fun hlt => ?_⟩⟩
    · rw [setBit_fst, hbit] at hset
      cases hset
    · have hused' : ∀ m, z.IsData m → (z.setZmap i (setBit j p).2).used m = z.used m := by
        intro m hm
        have hne : m ≠ j + i * 8192 + (z.sb.sFirstdatazone - 1) :=
          Nat.ne_of_lt (Nat.lt_of_lt_of_le hm.2 hge)
        rw [hused m hm, decide_eq_false hne, Bool.false_or]
      rw [returns_bind, returns_set, returns_pure]
      refine .inl ⟨rfl, rfl, rfl, rfl, hr.setBit hp, fun m hm hmap => ?_, hused'⟩
      rw [isSome_setZmap hp] at hmap
      exact (hused' m hm).trans
        (used_of_lt_firstZero h hm (Nat.lt_of_lt_of_le hm.2 hge) hmap)
    · have hdata : z.IsData (j + i * 8192 + (z.sb.sFirstdatazone - 1)) :=
        ⟨by omega, Nat.lt_of_not_le hlt⟩
      have hfree : z.used (j + i * 8192 + (z.sb.sFirstdatazone - 1)) = false := by
        have hdiv : z.nr (j + i * 8192 + (z.sb.sFirstdatazone - 1)) / 8192 = i := by
          unfold nr
          omega
        have hmod : z.nr (j + i * 8192 + (z.sb.sFirstdatazone - 1)) % 8192 = j := by
          unfold nr
          omega
        rw [used_eq_of_zmap (hdiv ▸ hp), hmod, hbit]
      refine returns_ite.mpr ⟨fun hcount => absurd (hu _ hdata hfree) hcount, fun _ => ?_⟩
      rw [returns_bind, returns_set, returns_pure]
      exact .inr ⟨rfl, rfl, rfl, hr.setBit hp, hdata, hfree, hused⟩

theorem newBlock_sameMaps : Ensures newBlock z fun _ z' => z.SameMaps z' := by
  unfold newBlock
  rw [ensures_bind, ensures_get]
  cases h : firstZero z.zmap with
  | none => exact ensures_pure.mpr fun _ => rfl
  | some x =>
    obtain ⟨i, j, p⟩ := x
    obtain ⟨-, -, hp, -, -, -⟩ := firstZero_eq_some h
    have hsame : z.SameMaps (z.setZmap i (setBit j p).2) := fun k => isSome_setZmap hp
    refine ensures_ite.mpr ⟨fun _ => ensures_throw, fun _ => ensures_ite.mpr ⟨fun _ => ?_, fun _ =>
      ensures_ite.mpr ⟨fun _ => ensures_throw, fun _ => ?_⟩⟩⟩
    · rw [ensures_bind, ensures_set, ensures_pure]
      exact hsame
    · rw [ensures_bind, ensures_set, ensures_pure]
      exact hsame

end NewBlock

namespace Zones

variable {z z' z'' : Zones} {S T : Nat → Prop} {b n : Nat}

/-- The zones of `S` whose buffers are not in use become free. -/
structure Frees (z : Zones) (S : Nat → Prop) (z' : Zones) : Prop where
  sb : z'.sb = z.sb
  reserved : z.Reserved → z'.Reserved
  block : ∀ n, ¬S n → z'.block n = z.block n
  count : ∀ n, (S n → z.count n = 0) → z'.count n = z.count n
  used : ∀ n, z.IsData n → (z'.used n = true ↔ z.used n = true ∧ ¬(S n ∧ z.count n = 0))

theorem IsData.congr (h : z'.sb = z.sb) : z'.IsData n ↔ z.IsData n := by
  rw [IsData, h, IsData]

theorem Frees.nothing (h : ∀ n, ¬S n) : z.Frees S z where
  sb := rfl
  reserved := id
  block _ _ := rfl
  count _ _ := rfl
  used n _ := (and_iff_left fun hn => h n hn.1).symm

theorem Frees.congr (h : z.Frees S z') (hST : ∀ n, S n ↔ T n) : z.Frees T z' := by
  obtain rfl : S = T := funext fun n => propext (hST n)
  exact h

theorem Frees.append (h : z.Frees S z') (h' : z'.Frees T z'') (hST : ∀ n, S n → ¬T n) :
    z.Frees (fun n => S n ∨ T n) z'' where
  sb := h'.sb.trans h.sb
  reserved hr := h'.reserved (h.reserved hr)
  block n hn := (h'.block n fun ht => hn (.inr ht)).trans (h.block n fun hs => hn (.inl hs))
  count n hn := by
    have hz := h.count n fun hs => hn (.inl hs)
    exact (h'.count n fun ht => hz.trans (hn (.inr ht))).trans hz
  used n hn := by
    rw [h'.used n ((IsData.congr h.sb).mpr hn), h.used n hn]
    by_cases ht : T n
    · have hs : ¬S n := fun hs => hST n hs ht
      rw [h.count n fun hs' => absurd hs' hs]
      simp [hs]
    · simp [ht]

theorem Frees.of_hold (h : (z.hold b).Frees S z') (hb : ¬S b) : z.Frees S (z'.release b) where
  sb := h.sb
  reserved := h.reserved
  block := h.block
  count n hn := by
    by_cases hnb : n = b
    · subst hnb
      have := h.count n fun hs => absurd hs hb
      simp [this]
    · have := h.count n
      rw [hold_count, update_of_ne hnb] at this
      rw [release_count, update_of_ne hnb, this hn]
  used n hn := by
    have hu := h.used n hn
    by_cases hnb : n = b
    · subst hnb
      exact hu.trans (by simp [hb])
    · rw [hold_count, update_of_ne hnb] at hu
      exact hu

end Zones

section FreeBlock

open Zones

variable {z : Zones} {n : Nat} {p : Bitmap}

theorem used_setZmap_clearBit {m : Nat} (hp : z.zmap (z.nr n / 8192) = some p)
    (hn : z.IsData n) (hm : z.IsData m) :
    (z.setZmap (z.nr n / 8192) (clearBit (z.nr n % 8192) p).2).used m =
      (decide (m ≠ n) && z.used m) := by
  rw [used_setZmap]
  split
  · rename_i hdiv
    rw [bit_clearBit, used_eq_of_zmap (hdiv ▸ hp)]
    congr 1
    rw [decide_eq_decide, not_iff_not]
    constructor
    · intro hmod
      exact hm.nr_inj (by omega)
    · rintro rfl
      rfl
  · rename_i hdiv
    have hne : m ≠ n := fun h => hdiv (by rw [h])
    rw [decide_eq_true hne, Bool.true_and]

theorem Zones.Reserved.clearBit {i j : Nat} (hr : z.Reserved) (hp : z.zmap i = some p)
    (hpos : 0 < j + i * 8192) : (z.setZmap i (clearBit j p).2).Reserved := by
  intro q hq
  by_cases hi : 0 = i
  · subst hi
    have hq' : (Fs.clearBit j p).2 = q := by simpa using hq
    have hj : 0 ≠ j := by omega
    rw [← hq', bit_clearBit, hr p hp, decide_eq_true hj, Bool.true_and]
  · rw [setZmap_zmap, update_of_ne hi] at hq
    exact hr q hq

theorem freeBlock_returns (stale : Nat → Block) (hn : z.IsData n) (hu : z.used n = true) :
    Returns (freeBlock stale n) z fun _ z' => z.Frees (· = n) z' := by
  have hrange : ¬(n < z.sb.sFirstdatazone ∨ z.sb.sNzones ≤ n) := by
    have := hn.1
    have := hn.2
    omega
  refine returns_ite.mpr ⟨fun h => absurd h hrange, fun _ => returns_ite.mpr
    ⟨fun hcount => ?_, fun hcount => ?_⟩⟩
  · -- The buffer is in use: only the number of its users changes.
    refine returns_set.mpr ⟨rfl, id, fun _ _ => rfl, fun m hm => ?_, fun m hm => ?_⟩
    · have hmn : m ≠ n := by
        rintro rfl
        exact hcount (hm rfl)
      exact update_of_ne hmn _ _
    · refine (and_iff_left ?_).symm
      rintro ⟨rfl, h0⟩
      exact hcount h0
  · have hmap : ∃ p, z.zmap (z.nr n / 8192) = some p := by
      unfold used at hu
      split at hu
      · cases hu
      · exact ⟨_, ‹_›⟩
    obtain ⟨p, hp⟩ := hmap
    have hbit := used_eq_of_zmap hp ▸ hu
    have hp' : (z.setBlock n (stale n)).zmap
        ((n - ((z.setBlock n (stale n)).sb.sFirstdatazone - 1)) / 8192) = some p := hp
    have hpos : 0 < z.nr n % 8192 + z.nr n / 8192 * 8192 := by
      have := hn.nr_pos
      omega
    simp only [hp']
    refine returns_ite.mpr ⟨fun hclear => ?_, fun _ => ?_⟩
    · have : (Fs.clearBit (z.nr n % 8192) p).1 = true := hclear
      rw [clearBit_fst, hbit] at this
      cases this
    refine returns_set.mpr ⟨rfl, fun hr => Reserved.clearBit (z := z) hr hp hpos,
      fun m hm => update_of_ne hm _ _, fun _ _ => rfl, fun m hm => ?_⟩
    have hused := used_setZmap_clearBit hp hn hm
    have h0 : z.count n = 0 := not_not.mp hcount
    change (z.setZmap (z.nr n / 8192) (Fs.clearBit (z.nr n % 8192) p).2).used m = true ↔ _
    rw [hused, Bool.and_eq_true, decide_eq_true_iff, and_comm]
    refine and_congr_right fun _ => not_congr ⟨?_, And.left⟩
    rintro rfl
    exact ⟨rfl, h0⟩

end FreeBlock

end Linux001.Fs
