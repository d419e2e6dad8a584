import Linux001.ProofKit.Sizes

/-! `number` of `kernel/vsprintf.c`, which prints an `int` in a base. -/

namespace Linux001.Vsprintf

structure Flags where
  (zeropad sign plus space left special small : Bool)

def digits (small : Bool) : List Char :=
  if small then "0123456789abcdefghijklmnopqrstuvwxyz".toList
  else "0123456789ABCDEFGHIJKLMNOPQRSTUVWXYZ".toList

/-- `while (size-->0) *str++ = c`: what is printed, and the size after it. -/
def pad (c : Char) (size : Int) : List Char × Int :=
  if 0 < size then (c :: (pad c (size - 1)).1, (pad c (size - 1)).2) else ([], size - 1)
termination_by size.toNat

/-- `tmp` after `while (num!=0)`, where `do_div` divides unsigned numbers. -/
def divide (table : List Char) (base : Nat) (num : Nat) : List Char :=
  if _h : num = 0 ∨ base < 2 then []
  else table.getD (num % base) '0' :: divide table base (num / base)
termination_by num
decreasing_by exact Nat.div_lt_self (by omega) (by omega)

/-- The sign that is printed, and the number without it, in an `int`. -/
def splitSign (num : Int32) (type : Flags) : List Char × Int32 :=
  if type.sign ∧ num < 0 then (['-'], -num)
  else (if type.plus then ['+'] else if type.space then [' '] else [], num)

def special (base : Nat) (type : Flags) : List Char :=
  if type.special then
    if base = 8 then ['0'] else if base = 16 then ['0', (digits type.small).getD 33 '0'] else []
  else []

def tmp (num : Int32) (base : Nat) (type : Flags) : List Char :=
  if num = 0 then ['0'] else divide (digits type.small) base num.toUInt32.toNat

/-- The loops that print, with the padding `size` that is left. -/
def layout (sign pre tmp : List Char) (size precision : Int) (zeropad left : Bool) : List Char :=
  let (spaces, size) := if zeropad || left then ([], size) else pad ' ' size
  let (padding, size) := if left then ([], size) else pad (if zeropad then '0' else ' ') size
  -- `while (i<precision--)`
  let zeros := (pad '0' (precision - tmp.length)).1
  let trailing := (pad ' ' size).1
  spaces ++ sign ++ pre ++ padding ++ zeros ++ tmp.reverse ++ trailing

/-- `number`, `none` where it returns 0.  The sizes stay within an `int`. -/
def number (num : Int32) (base : Nat) (size precision : Int) (type : Flags) : Option (List Char) :=
  if base < 2 ∨ 36 < base then none
  else
    let (sign, num) := splitSign num type
    let size := size - sign.length
    let size :=
      if type.special then if base = 16 then size - 2 else if base = 8 then size - 1 else size
      else size
    let tmp := tmp num base type
    let precision := max precision tmp.length
    some (layout sign (special base type) tmp (size - precision) precision
      (type.zeropad && !type.left) type.left)

/-! ### What is printed -/

def readBack (small : Bool) (base : Nat) (l : List Char) : Nat :=
  l.foldl (fun n c => (digits small).idxOf c + base * n) 0

def magnitude (num : Int32) (type : Flags) : Nat :=
  if type.sign then num.toInt.natAbs else num.toUInt32.toNat

theorem pad_eq (c : Char) (size : Int) :
    pad c size = (List.replicate size.toNat c, min size 0 - 1) := by
  fun_induction pad c size with
  | case1 size hpos ih =>
    obtain ⟨n, rfl⟩ : ∃ n : Nat, size = n + 1 := ⟨(size - 1).toNat, by omega⟩
    rw [ih, Prod.mk.injEq]
    exact ⟨by simp [List.replicate_succ], by omega⟩
  | case2 size hneg =>
    rw [Int.toNat_of_nonpos (by omega), Prod.mk.injEq]
    exact ⟨rfl, by omega⟩

theorem divide_eq {base : Nat} (hbase : 2 ≤ base) (table : List Char) (num : Nat) :
    divide table base num = (base.digits num).map (table.getD · '0') := by
  fun_induction divide table base num with
  | case1 num h =>
    obtain rfl : num = 0 := by omega
    simp
  | case2 num h ih => rw [ih, Nat.digits_def' (n := num) hbase (by omega), List.map_cons]

theorem idxOf_digits (small : Bool) {k : Nat} (hk : k < 36) :
    (digits small).idxOf ((digits small).getD k '0') = k := by
  have hall : ∀ small, ∀ k < 36, (digits small).idxOf ((digits small).getD k '0') = k := by
    decide +kernel
  exact hall small k hk

theorem readBack_zeros (small : Bool) (base z : Nat) (l : List Char) :
    readBack small base (List.replicate z '0' ++ l) = readBack small base l := by
  induction z with
  | zero => rfl
  | succ z ih =>
    have hzero : (digits small).idxOf '0' = 0 := by cases small <;> decide +kernel
    rw [List.replicate_succ, List.cons_append, ← ih, readBack, List.foldl_cons, hzero]
    rfl

theorem readBack_reverse {base : Nat} (hbase : 2 ≤ base ∧ base ≤ 36) (small : Bool)
    {l : List Nat} (hl : ∀ d ∈ l, d < base) :
    readBack small base (l.map ((digits small).getD · '0')).reverse = Nat.ofDigits base l := by
  rw [readBack, List.foldl_reverse, List.foldr_map, Nat.ofDigits_eq_foldr]
  induction l with
  | nil => rfl
  | cons d l ih =>
    have hd := hl d List.mem_cons_self
    rw [List.foldr_cons, List.foldr_cons, idxOf_digits small (by omega),
      ih fun d hd => hl d (List.mem_cons_of_mem _ hd)]
    rfl

theorem tmp_spec {base : Nat} (hbase : 2 ≤ base ∧ base ≤ 36) (num : Int32) (type : Flags) :
    readBack type.small base (tmp num base type).reverse = num.toUInt32.toNat ∧
      (tmp num base type).length ≤ 32 := by
  unfold tmp
  split
  · next h0 =>
    subst h0
    have := readBack_zeros type.small base 1 []
    exact ⟨this, by simp⟩
  · have hlt : num.toUInt32.toNat < base ^ 32 :=
      Nat.lt_of_lt_of_le num.toUInt32.toNat_lt (Nat.pow_le_pow_left hbase.1 32)
    rw [divide_eq hbase.1, List.length_map, Nat.digits_length_le_iff hbase.1,
      readBack_reverse hbase type.small fun d => Nat.digits_lt_base hbase.1, Nat.ofDigits_digits]
    exact ⟨rfl, hlt⟩

theorem splitSign_magnitude (num : Int32) (type : Flags) :
    (splitSign num type).2.toUInt32.toNat = magnitude num type := by
  have hlt := num.toUInt32.toNat_lt
  have hint : num.toInt = if 2 * num.toUInt32.toNat < 2 ^ 32 then (num.toUInt32.toNat : Int)
      else num.toUInt32.toNat - 2 ^ 32 := BitVec.toInt_eq_toNat_cond num.toBitVec
  have hneg : num < 0 ↔ num.toInt < 0 := Int32.lt_iff_toInt_lt
  unfold splitSign magnitude
  by_cases hsign : type.sign = true
  · by_cases hnum : num < 0
    · rw [if_pos ⟨hsign, hnum⟩, if_pos hsign]
      have hminus : (-num).toUInt32.toNat = (2 ^ 32 - num.toUInt32.toNat) % 2 ^ 32 :=
        BitVec.toNat_neg num.toBitVec
      have := hneg.mp hnum
      show (-num).toUInt32.toNat = _
      omega
    · rw [if_neg fun h => hnum h.2, if_pos hsign]
      have := hneg.not.mp hnum
      show num.toUInt32.toNat = _
      omega
  · rw [if_neg fun h => hsign h.1, if_neg hsign]

theorem special_size (base : Nat) (type : Flags) (size : Int) :
    (if type.special then if base = 16 then size - 2 else if base = 8 then size - 1 else size
      else size) = size - (special base type).length := by
  unfold special
  split
  · split
    · next h => simp [h]
    · split
      · simp
      · simp
  · simp

theorem layout_spec (sign pre tmp : List Char) (size precision : Int) (zeropad left : Bool)
    (h : (tmp.length : Int) ≤ precision) :
    ∃ spaces zeros trailing : Nat,
      layout sign pre tmp size precision zeropad left = List.replicate spaces ' ' ++ sign ++ pre ++
        List.replicate zeros '0' ++ tmp.reverse ++ List.replicate trailing ' ' ∧
      precision ≤ zeros + tmp.length ∧
      (spaces + zeros + trailing + tmp.length : Int) = max size 0 + precision := by
  simp only [layout, pad_eq]
  -- the padding goes to the end, after the prefix or to the front
  cases left with
  | true =>
    refine ⟨0, (precision - tmp.length).toNat, size.toNat, by simp, ?_, ?_⟩
    · omega
    · omega
  | false =>
    have hsize : (min size 0 - 1).toNat = 0 := by omega
    cases zeropad with
    | true =>
      refine ⟨0, size.toNat + (precision - tmp.length).toNat, 0, ?_, ?_, ?_⟩
      · simp [hsize, ← List.replicate_append_replicate]
      · omega
      · omega
    | false =>
      refine ⟨size.toNat, (precision - tmp.length).toNat, 0, ?_, ?_, ?_⟩
      · simp [hsize]
      · omega
      · omega

/-- The flags of `%#010x`. -/
def hexFlags : Flags := ⟨true, false, false, false, false, true, true⟩

end Linux001.Vsprintf
