import Linux001.Fs.ZoneMap
import Linux001.Namei.Names

/-! The entries of a directory as bytes of a block: an entry has the name of its bytes before the
first null byte, and `match` compares this name, if no byte of it is above 127. -/

namespace Linux001.Namei

open Function Fs

variable {b : Block} {e e' n : Nat} {name : List UInt8}

def entryName (b : Block) (e : Nat) : List UInt8 :=
  ((List.range nameLen).map (deName b e)).takeWhile (· ≠ 0)

def Plain (name : List UInt8) : Prop := ∀ c ∈ name.take nameLen, c.toNat < 128

theorem takeWhile_eq_iff {α : Type*} {p : α → Bool} {l L : List α} :
    L.takeWhile p = l ↔
      (∀ a ∈ l, p a = true) ∧ l <+: L ∧ ∀ a, L[l.length]? = some a → p a = false := by
  induction L generalizing l with
  | nil =>
    constructor
    · rintro rfl
      simp
    · rintro ⟨-, hl, -⟩
      exact (List.prefix_nil.mp hl).symm
  | cons a L ih =>
    by_cases ha : p a = true
    · rw [List.takeWhile_cons_of_pos ha]
      cases l with
      | nil => simp [ha]
      | cons c l =>
        rw [List.cons.injEq, ih, List.cons_prefix_cons]
        constructor
        · rintro ⟨rfl, hall, hl, hend⟩
          exact ⟨List.forall_mem_cons.mpr ⟨ha, hall⟩, ⟨rfl, hl⟩, hend⟩
        · rintro ⟨hall, ⟨rfl, hl⟩, hend⟩
          exact ⟨rfl, (List.forall_mem_cons.mp hall).2, hl, hend⟩
    · rw [List.takeWhile_cons_of_neg ha]
      cases l with
      | nil => simpa using ha
      | cons c l =>
        refine iff_of_false (by simp) ?_
        rintro ⟨hall, hl, -⟩
        obtain rfl := (List.cons_prefix_cons.mp hl).1
        exact ha (hall c (by simp))

theorem matchEntry_iff (h0 : 0 ∉ name) (hlen : name.length ≤ nameLen) :
    matchEntry name b e = true ↔
      deInode b e ≠ 0 ∧ entryName b e = name ∧ ∀ c ∈ name, c.toNat < 128 := by
  have hget : ∀ i, ((List.range nameLen).map (deName b e))[i]? =
      if i < nameLen then some (deName b e i) else none := by
    intro i
    by_cases hi : i < nameLen
    · simp [hi]
    · simp [hi]
  have hbytes : ∀ f : UInt8 × Nat → Bool,
      (∀ c i, f (c, i) = (decide (c.toNat < 128) && c == deName b e i)) →
      (name.zipIdx.all f = true ↔
      (∀ c ∈ name, c.toNat < 128) ∧ name <+: (List.range nameLen).map (deName b e)) := by
    intro f hf
    rw [List.all_eq_true, List.prefix_iff_getElem?]
    constructor
    · intro h
      have hall : ∀ i (hi : i < name.length), name[i].toNat < 128 ∧ name[i] = deName b e i := by
        intro i hi
        simpa [hf] using h (name[i], i)
          (List.mem_zipIdx_iff_getElem?.mpr (List.getElem?_eq_getElem hi))
      refine ⟨fun c hc => ?_, fun i hi => ?_⟩
      · obtain ⟨i, hi, rfl⟩ := List.mem_iff_getElem.mp hc
        exact (hall i hi).1
      · rw [hget, if_pos (by omega), (hall i hi).2]
    · rintro ⟨hlow, hpre⟩ ⟨c, i⟩ hmem
      have hci : name[i]? = some c := List.mem_zipIdx_iff_getElem?.mp hmem
      obtain ⟨hi, rfl⟩ := List.getElem?_eq_some_iff.mp hci
      have heq := hpre i hi
      rw [hget, if_pos (by omega)] at heq
      simpa [hf] using ⟨hlow _ (List.getElem_mem hi), (Option.some.inj heq).symm⟩
  have hend : (decide (nameLen ≤ name.length) || deName b e name.length == 0) = true ↔
      ∀ c, ((List.range nameLen).map (deName b e))[name.length]? = some c →
        decide (c ≠ 0) = false := by
    by_cases hlt : name.length < nameLen
    · simp [hlt]
    · simp [hlt, Nat.not_lt.mp hlt]
  have hplain : ∀ c ∈ name, decide (c ≠ 0) = true := by
    intro c hc
    refine decide_eq_true ?_
    rintro rfl
    exact h0 hc
  rw [matchEntry, Bool.and_eq_true, Bool.and_eq_true, Bool.and_eq_true, hbytes _ fun _ _ => rfl,
    hend, entryName,
    takeWhile_eq_iff]
  simp only [bne_iff_ne, decide_eq_true hlen, and_true]
  constructor
  · rintro ⟨⟨hinode, hterm⟩, hlow, hpre⟩
    exact ⟨hinode, ⟨hplain, hpre, hterm⟩, hlow⟩
  · rintro ⟨hinode, ⟨-, hpre, hterm⟩, hlow⟩
    exact ⟨⟨hinode, hterm⟩, hlow, hpre⟩

theorem deInode_setDeInode (hn : n < 65536) : deInode (setDeInode b e n) e = n :=
  entry_setEntry_self hn

theorem deInode_setDeInode_of_ne (h : e' ≠ e) : deInode (setDeInode b e n) e' = deInode b e' :=
  entry_setEntry_of_ne (by omega)

theorem entryName_congr {b' : Block} (h : ∀ l < nameLen, deName b' e l = deName b e l) :
    entryName b' e = entryName b e := by
  unfold entryName
  congr 1
  exact List.map_congr_left fun l hl => h l (List.mem_range.mp hl)

theorem entryName_setDeInode : entryName (setDeInode b e n) e' = entryName b e' := by
  refine entryName_congr fun l hl => ?_
  unfold nameLen at hl
  unfold deName setDeInode setEntry
  rw [update_of_ne (by omega), update_of_ne (by omega)]

theorem deInode_setDeName : deInode (setDeName b e name) e' = deInode b e' := by
  have hout : ∀ off, off = 16 * e' ∨ off = 16 * e' + 1 → setDeName b e name off = b off := by
    intro off hoff
    refine if_neg ?_
    unfold nameLen
    omega
  unfold deInode entry
  rw [hout _ (by omega), hout _ (by omega)]

theorem entryName_setDeName_of_ne (h : e' ≠ e) :
    entryName (setDeName b e name) e' = entryName b e' := by
  refine entryName_congr fun l hl => if_neg ?_
  unfold nameLen at *
  omega

theorem entryName_setDeName (h0 : 0 ∉ name) (hlen : name.length ≤ nameLen) :
    entryName (setDeName b e name) e = name := by
  have hget : ∀ i, ((List.range nameLen).map (deName (setDeName b e name) e))[i]? =
      if i < nameLen then some (name.getD i 0) else none := by
    intro i
    by_cases hi : i < nameLen
    · have hstore : deName (setDeName b e name) e i = name.getD i 0 := by
        unfold deName setDeName
        rw [if_pos (by omega), Nat.add_sub_cancel_left]
      simp [hi, hstore]
    · simp [hi]
  refine takeWhile_eq_iff.mpr ⟨fun c hc => decide_eq_true ?_, ?_, fun c hc => ?_⟩
  · rintro rfl
    exact h0 hc
  · rw [List.prefix_iff_getElem?]
    intro i hi
    rw [hget, if_pos (by omega)]
    simp [List.getElem?_eq_getElem hi]
  rw [hget] at hc
  by_cases hlt : name.length < nameLen
  · rw [if_pos hlt] at hc
    cases hc
    simp
  · rw [if_neg hlt] at hc
    cases hc

end Linux001.Namei
