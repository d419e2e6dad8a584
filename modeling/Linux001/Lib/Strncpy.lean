import Linux001.ProofKit.Sizes

/-! `strncpy` of `include/string.h`. The loop that copies does not count the NUL on which it stops,
and the padding is one byte too long where the source is shorter than the count. -/

namespace Linux001.Lib

open Function

def Strlen (m : Nat → UInt8) (s len : Nat) : Prop := (∀ i < len, m (s + i) ≠ 0) ∧ m (s + len) = 0

/-- Memory, the pointer `d`, and the addresses that were written. -/
structure Copy where
  mem : Nat → UInt8
  d : Nat
  stores : List Nat

/-- `*d++ = c`. -/
def Copy.put (s : Copy) (c : UInt8) : Copy := ⟨update s.mem s.d c, s.d + 1, s.stores ++ [s.d]⟩

/-- The loop that copies, with the count that it leaves. -/
def copyLoop : Nat → Nat → Copy → Nat × Copy
  | 0, _, s => (0, s)
  | n + 1, src, s =>
    if s.mem src ≠ 0 then copyLoop n (src + 1) (s.put (s.mem src)) else (n + 1, s.put (s.mem src))

def padLoop : Nat → Copy → Copy
  | 0, s => s
  | n + 1, s => padLoop n (s.put 0)

def strncpy (m : Nat → UInt8) (dest src count : Nat) : Copy :=
  let (n, s) := copyLoop count src ⟨m, dest, []⟩
  padLoop n s

/-- The bytes at `dest` are the string of length `len` and zeros, no other changes. -/
structure Copies (m : Nat → UInt8) (dest src count len : Nat) : Prop where
  stores : (strncpy m dest src count).stores = List.range' dest count
  copied : ∀ i < count,
    (strncpy m dest src count).mem (dest + i) = if i < len then m (src + i) else 0

/-- No byte of the source is overwritten with another one before it is read. -/
def Intact (m : Nat → UInt8) (dest src count : Nat) : Prop :=
  ∀ i < count, ∀ j < i, dest + j = src + i → m (src + j) = m (src + i)

theorem length_padLoop_stores (n : Nat) (s : Copy) :
    (padLoop n s).stores.length = s.stores.length + n := by
  induction n generalizing s with
  | zero => rfl
  | succ n ih =>
    rw [padLoop, ih, Copy.put, List.length_append, List.length_singleton]
    omega

/-- `k` bytes were copied from `src`, the last a NUL or `n` of them. -/
structure Copied (s r : Copy) (src n k left : Nat) : Prop where
  stores : r.stores = s.stores ++ List.range' s.d k
  frame : ∀ a < s.d, r.mem a = s.mem a
  value : ∀ i < k, r.mem (s.d + i) =
    if s.d ≤ src + i ∧ src + i < s.d + i then r.mem (src + i) else s.mem (src + i)
  stop : (k = n ∧ left = 0 ∧ ∀ i < n, r.mem (s.d + i) ≠ 0) ∨
    ∃ j < n, k = j + 1 ∧ left + j = n ∧ r.mem (s.d + j) = 0

theorem Copied.succ {s r : Copy} {src n k left : Nat} (hc : s.mem src ≠ 0)
    (h : Copied (s.put (s.mem src)) r (src + 1) n k left) :
    Copied s r src (n + 1) (k + 1) left := by
  have hfirst : r.mem s.d = s.mem src := (h.frame s.d s.d.lt_succ_self).trans (update_self ..)
  have hd : ∀ i, (s.put (s.mem src)).d + i = s.d + (i + 1) := fun i =>
    Nat.succ_add_eq_add_succ s.d i
  refine ⟨?_, fun a ha => ?_, fun i hi => ?_, ?_⟩
  · rw [h.stores]
    exact List.append_assoc ..
  · rw [h.frame a (Nat.lt_succ_of_lt ha)]
    exact update_of_ne ha.ne _ _
  · cases i with
    | zero => rw [if_neg (by omega), Nat.add_zero, Nat.add_zero, hfirst]
    | succ i =>
      have hval := h.value i (Nat.lt_of_succ_lt_succ hi)
      rw [hd, Nat.succ_add_eq_add_succ] at hval
      rw [hval]
      by_cases hx : src + (i + 1) = s.d
      · rw [hx, if_neg (Nat.not_succ_le_self _ ·.1), if_pos (by omega), hfirst]
        exact update_self ..
      · rw [show (s.put (s.mem src)).mem (src + (i + 1)) = s.mem (src + (i + 1)) from
          update_of_ne hx _ _]
        refine if_congr (and_congr_left' ?_) rfl rfl
        show s.d + 1 ≤ _ ↔ _
        omega
  · rcases h.stop with ⟨rfl, rfl, hne⟩ | ⟨j, hj, rfl, hleft, hzero⟩
    · refine .inl ⟨rfl, rfl, fun i hi => ?_⟩
      cases i with
      | zero => exact hfirst.trans_ne hc
      | succ i => exact hd i ▸ hne i (Nat.lt_of_succ_lt_succ hi)
    · exact .inr ⟨j + 1, Nat.succ_lt_succ hj, rfl, congrArg Nat.succ hleft, hd j ▸ hzero⟩

theorem copyLoop_copied (n src : Nat) (s : Copy) :
    ∃ k, Copied s (copyLoop n src s).2 src n k (copyLoop n src s).1 := by
  induction n generalizing src s with
  | zero => exact ⟨0, (List.append_nil _).symm, fun _ _ => rfl, nofun, .inl ⟨rfl, rfl, nofun⟩⟩
  | succ n ih =>
    rw [copyLoop]
    split
    · next hc =>
      obtain ⟨k, hk⟩ := ih (src + 1) (s.put (s.mem src))
      exact ⟨k + 1, hk.succ hc⟩
    · next hc =>
      have hput : (s.put (s.mem src)).mem s.d = s.mem src := update_self ..
      refine ⟨1, rfl, fun a ha => update_of_ne ha.ne _ _, fun i hi => ?_, ?_⟩
      · obtain rfl : i = 0 := by omega
        rw [if_neg (by omega)]
        exact hput
      · exact .inr ⟨0, n.succ_pos, rfl, rfl, hput.trans (not_not.mp hc)⟩

theorem Copied.eq_source {s r : Copy} {src n k left : Nat} (h : Copied s r src n k left)
    (hintact : Intact s.mem s.d src n) {i : Nat} (hi : i < k) (hn : i < n) :
    r.mem (s.d + i) = s.mem (src + i) := by
  induction i using Nat.strong_induction_on with
  | h i ih =>
    rw [h.value i hi]
    split
    · next hin =>
      obtain ⟨j, hj⟩ := Nat.exists_eq_add_of_le hin.1
      have hlt : j < i := by omega
      rw [hj, ih j hlt (hlt.trans hi) (hlt.trans hn), ← hj]
      exact hintact i hn j hlt hj.symm
    · rfl

/-- `strncpy` is right exactly when the string is long enough and is not overwritten first. -/
theorem strncpy_copies_iff (m : Nat → UInt8) (dest src count len : Nat) (hlen : Strlen m src len) :
    Copies m dest src count len ↔ count ≤ len ∧ Intact m dest src count := by
  obtain ⟨k, hk⟩ := copyLoop_copied count src ⟨m, dest, []⟩
  have hsplit : strncpy m dest src count = padLoop (copyLoop count src ⟨m, dest, []⟩).1
      (copyLoop count src ⟨m, dest, []⟩).2 := rfl
  generalize copyLoop count src ⟨m, dest, []⟩ = r at hk hsplit
  obtain ⟨left, r⟩ := r
  rcases hk.stop with ⟨rfl, hleft, hne⟩ | ⟨j, hj, rfl, hleft, hzero⟩
  · obtain rfl : left = 0 := hleft
    replace hsplit : strncpy m dest src k = r := hsplit
    constructor
    · rintro ⟨-, hcopied⟩
      rw [hsplit] at hcopied
      have hle : k ≤ len := by
        by_contra hlt
        refine hne len (Nat.lt_of_not_le hlt) ?_
        rw [hcopied len (Nat.lt_of_not_le hlt), if_neg (Nat.lt_irrefl len)]
      have hsame : ∀ i < k, r.mem (dest + i) = m (src + i) := fun i hi => by
        rw [hcopied i hi, if_pos (hi.trans_le hle)]
      refine ⟨hle, fun i hi j hj heq => ?_⟩
      have hval := hk.value i hi
      rw [if_pos (by dsimp only; omega), ← heq] at hval
      exact (hsame j (hj.trans hi)).symm.trans (hval.symm.trans (hsame i hi))
    · rintro ⟨hle, hintact⟩
      refine ⟨?_, fun i hi => ?_⟩
      · rw [hsplit]
        exact hk.stores
      · rw [hsplit, if_pos (hi.trans_le hle)]
        exact hk.eq_source hintact hi hi
  · refine iff_of_false (fun h => ?_) fun ⟨hle, hintact⟩ => ?_
    · have hlength := congrArg List.length h.stores
      rw [hsplit, length_padLoop_stores, hk.stores, List.length_append, List.length_range',
        List.length_range'] at hlength
      omega
    · exact hlen.1 j (hj.trans_le hle) ((hk.eq_source hintact j.lt_succ_self hj).symm.trans hzero)

/-- Two bytes are written for an empty string and a count of 1. -/
theorem strncpy_empty : Strlen (fun _ => 0) 0 0 ∧ (strncpy (fun _ => 0) 8 0 1).stores = [8, 9] :=
  ⟨⟨nofun, rfl⟩, rfl⟩

/-- Three bytes of the string `ABCD`, to a place that overlaps with it from below. -/
theorem strncpy_copies_iff_down :
    Copies (fun a => if 4 ≤ a ∧ a < 8 then UInt8.ofNat (61 + a) else 0) 2 4 3 4 :=
  (strncpy_copies_iff _ 2 4 3 4 ⟨by decide, rfl⟩).mpr ⟨by decide, by unfold Intact; decide⟩

end Linux001.Lib
