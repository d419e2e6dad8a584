import Linux001.Mm.CopyOnWrite
import Linux001.Mm.PageFault
import Linux001.ProofKit.Hoare

/-! `count` and `copy_strings` of `fs/exec.c`, which copy the arguments and the environment of a new
program from the memory of the caller to pages of the kernel. -/

namespace Linux001.Exec.Strings

open Function ProofKit Mm

abbrev User := Nat → Byte

def readLe (u : User) : Nat → Nat → Nat
  | _, 0 => 0
  | addr, n + 1 => (u addr).toNat + 256 * readLe u (addr + 1) n

def getFsLong (u : User) (addr : Nat) : Nat := readLe u addr 8

def maxArgPages : Nat := 32

structure ArgPages where
  mm : Memory
  page : Nat → Nat

inductive Stop
  /-- "argc is wrong" -/
  | argcWrong
  /-- "nonexistent page in exec.c" -/
  | nonexistentPage
  /-- an access to `page[index]` outside the array -/
  | outside (index : Nat)
  /-- an `int` that passes its range -/
  | overflow
  /-- a loop that does not end -/
  | endless
  | mm (p : Mm.Panic)
  deriving DecidableEq

abbrev ArgM := EStateM Stop ArgPages

/-- The loop of `count`; after `2^31` rounds `i` overflows. -/
def countLoop (u : User) : Nat → Nat → Nat → ArgM Nat
  | 0, _, _ => throw .overflow
  | fuel + 1, tmp, i =>
    if getFsLong u tmp ≠ 0 then countLoop u fuel (tmp + 8) (i + 1) else pure i

def count (u : User) (argv : Nat) : ArgM Nat :=
  if argv = 0 then pure 0 else countLoop u (2 ^ 31) argv 0

def lenLoop (u : User) : Nat → Nat → Nat → ArgM (Nat × Nat)
  | 0, _, _ => throw .overflow
  | fuel + 1, tmp, len =>
    if u tmp ≠ 0 then lenLoop u fuel (tmp + 1) (len + 1) else pure (tmp + 1, len + 1)

def pageLoop : Nat → Nat → ArgM Bool
  | 0, _ => pure true
  | n + 1, i => do
    let s ← get
    if s.page i = 0 then
      match getFreePage s.mm with
      | none => pure false
      | some (a, mm) =>
        set (ArgPages.mk mm (update s.page i a))
        pageLoop n (i + 1)
    else pure true

/-- The store of a byte to `((char *) page[p/PAGE_SIZE])[p%PAGE_SIZE]`. -/
def ArgPages.storeByte (s : ArgPages) (p : Nat) (b : Byte) : ArgPages :=
  let a := s.page (p / 4096)
  let i := wordIndex (pageOffset p)
  { s with mm := s.mm.store a i (setByte (s.mm.mem a i) ((pageOffset p).val % 8) b) }

def copyLoop (u : User) : Nat → Nat → Nat → ArgM Nat
  | 0, p, _ => pure p
  | len + 1, p, tmp => do
    let p := (p + (2 ^ 64 - 1)) % 2 ^ 64
    let s ← get
    if maxArgPages ≤ p / 4096 then throw (.outside (p / 4096))
    else if s.page (p / 4096) = 0 then throw .nonexistentPage
    else
      set (s.storeByte p (u (tmp - 1)))
      copyLoop u len p (tmp - 1)

def subInt (p len : Nat) : Nat := (p + (2 ^ 64 - len)) % 2 ^ 64

/-- The body of `copy_strings`: the new `p`, or `none` for 0. -/
def copyString (u : User) (tmp p : Nat) : ArgM (Option Nat) :=
  if tmp = 0 then throw .argcWrong
  else do
    let (tmp, len) ← lenLoop u (2 ^ 31 - 1) tmp 0
    if subInt p len < 0 then pure none
    else
      let i := subInt p len % 2 ^ 32 / 4096
      if ← pageLoop (maxArgPages - i) i then
        let p ← copyLoop u len p tmp
        pure (some p)
      else pure none

def copyStrings (u : User) (argv : Nat) : Nat → Nat → ArgM Nat
  | 0, p => pure p
  | argc + 1, p => do
    match ← copyString u (getFsLong u (argv + 8 * argc)) p with
    | none => pure 0
    | some p => copyStrings u argv argc p

/-! ### Strings in memory -/

def CString (u : User) : Nat → List Byte → Prop
  | addr, [] => u addr = 0
  | addr, b :: str => b ≠ 0 ∧ u addr = b ∧ CString u (addr + 1) str

def Pointers (u : User) (argv : Nat) (strs : List (List Byte)) : Prop :=
  ∀ i, ∀ h : i < strs.length,
    getFsLong u (argv + 8 * i) ≠ 0 ∧ CString u (getFsLong u (argv + 8 * i)) strs[i]

structure StringVector (u : User) (argv : Nat) (strs : List (List Byte)) : Prop where
  pointers : Pointers u argv strs
  null : getFsLong u (argv + 8 * strs.length) = 0

/-- The strings of a vector passed to `execve`; NULL is the empty vector. -/
def Vector (u : User) (argv : Nat) (strs : List (List Byte)) : Prop :=
  if argv = 0 then strs = [] else StringVector u argv strs

def size (str : List Byte) : Nat := str.length + 1

section Memory

variable {u : User} {addr tmp argv n k : Nat} {str : List Byte} {strs : List (List Byte)}
  {s : ArgPages}

theorem CString.congr {u' : User} {addr' : Nat} (h : CString u addr str)
    (hcopy : ∀ k < size str, u' (addr' + k) = u (addr + k)) : CString u' addr' str := by
  induction str generalizing addr addr' with
  | nil => exact (hcopy 0 (by decide)).trans h
  | cons b str ih =>
    refine ⟨h.1, (hcopy 0 (Nat.succ_pos _)).trans h.2.1, ih h.2.2 fun k hk => ?_⟩
    rw [Nat.add_assoc, Nat.add_assoc, Nat.add_comm 1]
    exact hcopy (k + 1) (Nat.succ_lt_succ hk)

theorem lenLoop_eq (fuel : Nat) (h : CString u tmp str) (hfuel : size str ≤ fuel) :
    lenLoop u fuel tmp n s = .ok (tmp + size str, n + size str) s := by
  induction str generalizing fuel tmp n with
  | nil =>
    obtain ⟨fuel, rfl⟩ : ∃ m, fuel = m + 1 :=
      Nat.exists_eq_succ_of_ne_zero (by rintro rfl; cases hfuel)
    have hnul : u tmp = 0 := h
    rw [lenLoop, if_neg (not_not.mpr hnul)]
    rfl
  | cons b str ih =>
    obtain ⟨fuel, rfl⟩ : ∃ m, fuel = m + 1 :=
      Nat.exists_eq_succ_of_ne_zero (by rintro rfl; cases hfuel)
    have hne : u tmp ≠ 0 := h.2.1 ▸ h.1
    rw [lenLoop, if_pos hne, ih fuel h.2.2 (Nat.le_of_succ_le_succ hfuel)]
    simp only [size, List.length_cons, Nat.add_assoc, Nat.add_comm 1]

theorem countLoop_eq (fuel : Nat) (h : StringVector u argv strs) (hk : k + n = strs.length)
    (hfuel : n < fuel) : countLoop u fuel (argv + 8 * k) k s = .ok strs.length s := by
  induction n generalizing fuel k with
  | zero =>
    obtain ⟨fuel, rfl⟩ : ∃ m, fuel = m + 1 := Nat.exists_eq_succ_of_ne_zero (by omega)
    obtain rfl : k = strs.length := hk
    rw [countLoop, if_neg (not_not.mpr h.null)]
    rfl
  | succ n ih =>
    obtain ⟨fuel, rfl⟩ : ∃ m, fuel = m + 1 := Nat.exists_eq_succ_of_ne_zero (by omega)
    rw [countLoop, if_pos (h.pointers k (by omega)).1]
    exact ih (k := k + 1) fuel (by omega) (by omega)

theorem count_eq (h : Vector u argv strs) (hlen : strs.length < 2 ^ 31) :
    count u argv s = .ok strs.length s := by
  unfold Vector at h
  unfold count
  split at h
  · rename_i h0
    rw [if_pos h0, h]
    rfl
  · rename_i h0
    rw [if_neg h0]
    exact countLoop_eq (k := 0) _ h (Nat.zero_add _) hlen

theorem Vector.pointers (h : Vector u argv strs) : Pointers u argv strs := by
  unfold Vector at h
  split at h
  · subst h
    exact fun i hi => absurd hi (Nat.not_lt_zero i)
  · exact h.pointers

theorem Pointers.init (h : Pointers u argv (strs ++ [str])) : Pointers u argv strs := by
  intro i hi
  have := h i (by rw [List.length_append]; omega)
  rwa [List.getElem_append_left hi] at this

theorem Pointers.last (h : Pointers u argv (strs ++ [str])) :
    getFsLong u (argv + 8 * strs.length) ≠ 0 ∧
      CString u (getFsLong u (argv + 8 * strs.length)) str := by
  have := h strs.length (by rw [List.length_append]; exact Nat.lt_succ_self _)
  rwa [List.getElem_concat_length rfl] at this

end Memory

/-! ### The pages of the array -/

/-- The pages in the array were free in `m`; the rest of `mem_map` is the same. -/
structure Holds (m : Memory) (s : ArgPages) : Prop where
  owned : ∀ i < maxArgPages, s.page i ≠ 0 → ∃ k < pagingPages, s.page i = lowMem + k * 4096 ∧
    m.memMap k = 0 ∧ s.mm.memMap k = 1
  distinct : ∀ i < maxArgPages, ∀ j < maxArgPages, s.page i ≠ 0 → s.page i = s.page j → i = j
  rest : ∀ k, (∀ i < maxArgPages, s.page i ≠ lowMem + k * 4096) → s.mm.memMap k = m.memMap k

def ArgPages.byte (s : ArgPages) (p : Nat) : Byte :=
  pageBytes (s.mm.mem (s.page (p / 4096))) (pageOffset p)

structure Got (s t : ArgPages) (i j : Nat) : Prop where
  same : ∀ l, ¬(i ≤ l ∧ l < j) → t.page l = s.page l
  new : ∀ l, i ≤ l → l < j → t.page l ≠ 0 ∧ t.mm.mem (t.page l) = fun _ => 0
  kept : ∀ l < maxArgPages, s.page l ≠ 0 → t.mm.mem (s.page l) = s.mm.mem (s.page l)
  free : freePages t.mm + (j - i) = freePages s.mm

section Pages

variable {m mm : Memory} {s t : ArgPages} {a i j k p q len tmp : Nat} {b : Byte} {u : User}

theorem page_ne_zero (k : Nat) : lowMem + k * 4096 ≠ 0 := by
  unfold lowMem
  omega

theorem Holds.start : Holds m ⟨m, fun _ => 0⟩ where
  owned _ _ h := absurd rfl h
  distinct _ _ _ _ h := absurd rfl h
  rest _ _ := rfl

theorem Holds.congr (h : Holds m s) (hpage : t.page = s.page) (hmap : t.mm.memMap = s.mm.memMap) :
    Holds m t := by
  obtain ⟨howned, hdistinct, hrest⟩ := h
  rw [← hpage, ← hmap] at howned hrest
  rw [← hpage] at hdistinct
  exact ⟨howned, hdistinct, hrest⟩

theorem Holds.fresh (h : Holds m s) (hs : getFreePage s.mm = some (a, mm)) (hi : i < maxArgPages) :
    s.page i ≠ a := by
  obtain ⟨k, -, hfree, rfl, -⟩ := getFreePage_spec hs
  intro heq
  obtain ⟨k', -, hpage, -, hone⟩ := h.owned i hi (heq ▸ page_ne_zero k)
  obtain rfl : k' = k := by omega
  rw [hfree] at hone
  exact absurd hone (by decide)

theorem Holds.take (h : Holds m s) (hs : getFreePage s.mm = some (a, mm)) (hi : i < maxArgPages)
    (h0 : s.page i = 0) : Holds m ⟨mm, update s.page i a⟩ := by
  have hfresh := fun j hj => h.fresh (i := j) hs hj
  obtain ⟨k, hk, hfree, rfl, rfl⟩ := getFreePage_spec hs
  refine ⟨fun j hj hne => ?_, fun j hj j' hj' hne heq => ?_, fun k' hk' => ?_⟩
  · by_cases hji : j = i
    · subst hji
      exact ⟨k, hk, update_self .., (h.rest k hfresh).symm.trans hfree, update_self ..⟩
    simp only [update_of_ne hji] at hne ⊢
    obtain ⟨k', hk', hpage, hfree', hone⟩ := h.owned j hj hne
    have hkk : k' ≠ k := by
      rintro rfl
      rw [hfree] at hone
      exact absurd hone (by decide)
    exact ⟨k', hk', hpage, hfree', (update_of_ne hkk _ _).trans hone⟩
  · by_cases hji : j = i
    · by_cases hji' : j' = i
      · rw [hji, hji']
      · simp only [hji, update_self, update_of_ne hji'] at heq
        exact absurd heq.symm (hfresh j' hj')
    · by_cases hji' : j' = i
      · simp only [hji', update_self, update_of_ne hji] at heq
        exact absurd heq (hfresh j hj)
      · simp only [update_of_ne hji, update_of_ne hji'] at hne heq
        exact h.distinct j hj j' hj' hne heq
  · have hkk : k' ≠ k := by
      rintro rfl
      exact hk' i hi (update_self ..)
    refine (update_of_ne hkk _ _).trans (h.rest k' fun j hj => ?_)
    by_cases hji : j = i
    · rw [hji, h0]
      exact (page_ne_zero k').symm
    · exact (update_of_ne hji _ _).symm.trans_ne (hk' j hj)

theorem Got.first (h : Got ⟨mm, update s.page i a⟩ t (i + 1) j)
    (hs : getFreePage s.mm = some (a, mm)) (h0 : s.page i = 0) (hi : i < maxArgPages) (hij : i < j)
    (hfresh : ∀ l < maxArgPages, s.page l ≠ a) : Got s t i j := by
  have hfree := freePages_getFreePage hs
  obtain ⟨k, -, -, rfl, rfl⟩ := getFreePage_spec hs
  refine ⟨fun l hl => ?_, fun l hl hl' => ?_, fun l hl hne => ?_, ?_⟩
  · exact (h.same l (by omega)).trans (update_of_ne (by omega) _ _)
  · by_cases hli : l = i
    · have hself : t.page i = lowMem + k * 4096 := (h.same i (by omega)).trans (update_self ..)
      have hkept := h.kept i hi ((update_self ..).trans_ne (page_ne_zero k))
      simp only [update_self, Memory.setPage_mem] at hkept
      rw [hli, hself]
      exact ⟨page_ne_zero k, hkept⟩
    · exact h.new l (by omega) hl'
  · have hli : l ≠ i := fun hli => hne (hli ▸ h0)
    have hkept := h.kept l hl ((update_of_ne hli _ _).trans_ne hne)
    simp only [update_of_ne hli, Memory.setPage_mem, update_of_ne (hfresh l hl)] at hkept
    exact hkept
  · have := h.free
    simp only at this
    omega

theorem pageLoop_returns (h : Holds m s) (hij : i ≤ j) (hj : j ≤ maxArgPages)
    (hgap : ∀ l, i ≤ l → l < j → s.page l = 0) (hend : j < maxArgPages → s.page j ≠ 0) :
    Returns (pageLoop (maxArgPages - i) i) s fun r t => Holds m t ∧
      if j - i ≤ freePages s.mm then r = true ∧ Got s t i j else r = false := by
  obtain ⟨n, hn⟩ := Nat.exists_eq_add_of_le hij
  induction n generalizing i s with
  | zero =>
    obtain rfl : j = i := hn
    have hgot : Got s s j j :=
      ⟨fun _ _ => rfl, fun l hl hl' => absurd hl' (by omega), fun _ _ _ => rfl, by omega⟩
    have hstop : pageLoop (maxArgPages - j) j s = .ok true s := by
      by_cases hlt : j < maxArgPages
      · obtain ⟨n, hn⟩ : ∃ n, maxArgPages - j = n + 1 := ⟨maxArgPages - j - 1, by omega⟩
        rw [hn, pageLoop, get_bind, if_neg (hend hlt)]
        rfl
      · rw [show maxArgPages - j = 0 by omega]
        rfl
    rw [returns_of_eq hstop, if_pos (by omega)]
    exact ⟨h, rfl, hgot⟩
  | succ n ih =>
    obtain ⟨r, hr⟩ : ∃ r, maxArgPages - i = r + 1 := ⟨maxArgPages - i - 1, by omega⟩
    have hi : i < maxArgPages := by omega
    have h0 : s.page i = 0 := hgap i (Nat.le_refl i) (by omega)
    rw [hr, pageLoop, returns_bind, returns_get, if_pos h0]
    cases hs : getFreePage s.mm with
    | none =>
      have hnone : freePages s.mm = 0 := getFreePage_eq_none_iff.mp hs
      rw [returns_pure, if_neg (by omega)]
      exact ⟨h, rfl⟩
    | some x =>
      obtain ⟨a, mm⟩ := x
      have hfree := freePages_getFreePage hs
      have hfresh := fun l hl => h.fresh (i := l) hs hl
      have hrest := ih (h.take hs hi h0) (i := i + 1) (by omega)
        (fun l hl hl' => (update_of_ne (by omega) _ _).trans (hgap l (by omega) hl'))
        (fun hlt => (update_of_ne (by omega) _ _).trans_ne (hend hlt)) (by omega)
      rw [show maxArgPages - (i + 1) = r by omega] at hrest
      refine hrest.imp ?_
      rintro r t ⟨hholds, hif⟩
      refine ⟨hholds, ?_⟩
      have hiff : j - (i + 1) ≤ freePages mm ↔ j - i ≤ freePages s.mm := by omega
      by_cases hle : j - i ≤ freePages s.mm
      · rw [if_pos (hiff.mpr hle)] at hif
        rw [if_pos hle]
        exact ⟨hif.1, hif.2.first hs h0 hi (by omega) hfresh⟩
      · rw [if_neg (hiff.not.mpr hle)] at hif
        rw [if_neg hle]
        exact hif

theorem pageOffset_inj (hdiv : q / 4096 = p / 4096) (h : pageOffset q = pageOffset p) : q = p := by
  have hmod : q % 4096 = p % 4096 := congrArg Fin.val h
  omega

theorem Holds.byte_storeByte (h : Holds m s) (hp : p / 4096 < maxArgPages)
    (hpage : s.page (p / 4096) ≠ 0) (hq : q / 4096 < maxArgPages) :
    (s.storeByte p b).byte q = if q = p then b else s.byte q := by
  unfold ArgPages.byte
  change pageBytes (update s.mm.mem _ _ (s.page (q / 4096))) _ = _
  by_cases hdiv : q / 4096 = p / 4096
  · rw [hdiv, update_self, pageBytes_setByte]
    by_cases hqp : q = p
    · rw [if_pos hqp, hqp, update_self]
    · rw [if_neg hqp, update_of_ne fun hoff => hqp (pageOffset_inj hdiv hoff)]
  · have hne : s.page (q / 4096) ≠ s.page (p / 4096) := fun heq =>
      hdiv (h.distinct _ hp _ hq hpage heq.symm).symm
    rw [update_of_ne hne, if_neg]
    rintro rfl
    exact hdiv rfl

theorem copyLoop_returns (h : Holds m s) (hlen : len ≤ p) (hp : p ≤ 4096 * maxArgPages)
    (hpages : ∀ q, p - len ≤ q → q < p → s.page (q / 4096) ≠ 0) (htmp : len ≤ tmp) :
    Returns (copyLoop u len p tmp) s fun r t => r = p - len ∧ t.page = s.page ∧
      t.mm.memMap = s.mm.memMap ∧ ∀ q < 4096 * maxArgPages,
        t.byte q = if p - len ≤ q ∧ q < p then u (tmp + q - p) else s.byte q := by
  induction len generalizing p tmp s with
  | zero =>
    refine returns_pure.mpr ⟨rfl, rfl, rfl, fun q _ => ?_⟩
    rw [if_neg (by omega)]
  | succ len ih =>
    have hdec : (p + (2 ^ 64 - 1)) % 2 ^ 64 = p - 1 := by
      unfold maxArgPages at hp
      omega
    have hin : (p - 1) / 4096 < maxArgPages := by omega
    have hpage : s.page ((p - 1) / 4096) ≠ 0 := hpages (p - 1) (by omega) (by omega)
    have hrest := ih (s := s.storeByte (p - 1) (u (tmp - 1))) (h.congr rfl rfl)
      (show len ≤ p - 1 by omega) (by omega) (fun q hq hq' => hpages q (by omega) (by omega))
      (show len ≤ tmp - 1 by omega)
    rw [copyLoop, hdec]
    simp only [returns_bind, returns_get]
    rw [if_neg (by omega), if_neg hpage, returns_bind, returns_set]
    refine hrest.imp ?_
    rintro r t ⟨rfl, hpage', hmap, hbytes⟩
    refine ⟨by omega, hpage', hmap, fun q hq => ?_⟩
    rw [hbytes q hq, h.byte_storeByte hin hpage (by omega)]
    by_cases hq1 : q = p - 1
    · rw [if_neg (by omega), if_pos hq1, if_pos (by omega), show tmp + q - p = tmp - 1 by omega]
    · by_cases hq2 : p - 1 - len ≤ q ∧ q < p - 1
      · rw [if_pos hq2, if_pos (by omega), show tmp - 1 + q - (p - 1) = tmp + q - p by omega]
      · rw [if_neg hq2, if_neg hq1, if_neg (by omega)]

/-- A string that is too long reaches a missing page, or the end. -/
theorem copyLoop_stops (hlen : p < len) (hp : p < 2 ^ 64) :
    ¬Returns (copyLoop u len p tmp) s Q := by
  induction len generalizing p tmp s with
  | zero => omega
  | succ len ih =>
    intro hret
    rw [copyLoop, returns_bind, returns_get] at hret
    split at hret
    · exact returns_throw hret
    rename_i hin
    split at hret
    · exact returns_throw hret
    · refine ih ?_ (Nat.mod_lt _ (by decide)) hret
      unfold maxArgPages at hin
      omega

end Pages

/-! ### One string -/

def room : Nat := 4096 * maxArgPages - 4

def pagesFor (n : Nat) : Nat := if n = 0 then 0 else (n + 4 + 4095) / 4096

/-- `n` bytes have been copied, and the pages are those of these bytes. -/
structure Filled (m : Memory) (n : Nat) (s : ArgPages) : Prop where
  holds : Holds m s
  le : n ≤ room
  pages : ∀ i < maxArgPages, s.page i ≠ 0 ↔ maxArgPages - pagesFor n ≤ i
  free : freePages s.mm + pagesFor n = freePages m
  clear : ∀ q < room - n, s.page (q / 4096) ≠ 0 → s.byte q = 0

section String

variable {m : Memory} {s t : ArgPages} {i j n p q tmp : Nat} {u : User} {str : List Byte} {n' : Nat}
  {Q : Option Nat → ArgPages → Prop}

theorem pagesFor_zero : pagesFor 0 = 0 := if_pos rfl

theorem Filled.start : Filled m 0 ⟨m, fun _ => 0⟩ where
  holds := .start
  le := Nat.zero_le _
  pages i hi := by
    exact iff_of_false (not_not.mpr rfl) (Nat.not_le.mpr hi)
  free := by rw [pagesFor_zero, Nat.add_zero]
  clear _ _ h := absurd rfl h

theorem pagesFor_le (hn : n ≤ room) : pagesFor n ≤ maxArgPages := by
  unfold pagesFor room maxArgPages at *
  split <;> omega

theorem pagesFor_mono (h : n ≤ n') : pagesFor n ≤ pagesFor n' := by
  unfold pagesFor
  split <;> split <;> omega

theorem div_eq_pagesFor (hn : n ≤ room) (h0 : 0 < n) :
    (room - n) / 4096 = maxArgPages - pagesFor n := by
  unfold pagesFor room maxArgPages at *
  split <;> omega

theorem subInt_of_le (h : n ≤ p) (hp : p < 2 ^ 64) : subInt p n = p - n := by
  unfold subInt
  omega

theorem pageBytes_clear (o : Fin 4096) : pageBytes (fun _ => 0) o = 0 := by
  apply BitVec.eq_of_getLsbD_eq
  intro k hk
  simp [pageBytes, getByte]

theorem Got.byte_same (h : Got s t i j) (hq : q / 4096 < maxArgPages)
    (hpage : s.page (q / 4096) ≠ 0)
    (hnot : ¬(i ≤ q / 4096 ∧ q / 4096 < j)) : t.byte q = s.byte q := by
  rw [ArgPages.byte, ArgPages.byte, h.same _ hnot, h.kept _ hq hpage]

theorem Got.byte_new (h : Got s t i j) (hi : i ≤ q / 4096) (hj : q / 4096 < j) : t.byte q = 0 := by
  rw [ArgPages.byte, (h.new _ hi hj).2, pageBytes_clear]

theorem Filled.pages_got (h : Filled m n s) (hnn : n ≤ n')
    (hgot : Got s t (maxArgPages - pagesFor n') (maxArgPages - pagesFor n)) :
    ∀ l < maxArgPages, t.page l ≠ 0 ↔ maxArgPages - pagesFor n' ≤ l := by
  intro l hl
  have hmono := pagesFor_mono hnn
  by_cases hnew : maxArgPages - pagesFor n' ≤ l ∧ l < maxArgPages - pagesFor n
  · exact iff_of_true (hgot.new l hnew.1 hnew.2).1 hnew.1
  · rw [hgot.same l hnew, h.pages l hl]
    omega

theorem copyString_returns (h : Filled m n s) (hstr : CString u tmp str) (htmp : tmp ≠ 0)
    (hsize : size str < 2 ^ 31) (hn : n + size str ≤ room) :
    Returns (copyString u tmp (room - n)) s fun r t => Holds m t ∧
      if pagesFor (n + size str) ≤ freePages m then
        r = some (room - (n + size str)) ∧ Filled m (n + size str) t ∧
          CString t.byte (room - (n + size str)) str ∧
          ∀ q, room - n ≤ q → q < room → t.byte q = s.byte q
      else r = none := by
  have hpos : 0 < size str := Nat.succ_pos _
  have hroom : room < 2 ^ 32 := by decide
  have hsub : subInt (room - n) (size str) = room - (n + size str) := by
    rw [subInt_of_le (by omega) (by omega), Nat.sub_sub]
  have hfirst := div_eq_pagesFor hn (by omega)
  have hmono : pagesFor n ≤ pagesFor (n + size str) := pagesFor_mono (by omega)
  have hmax := pagesFor_le hn
  have hfree := h.free
  unfold copyString
  rw [if_neg htmp, returns_bind, returns_of_eq (lenLoop_eq _ hstr (by omega))]
  simp only [Nat.zero_add]
  rw [if_neg (Nat.not_lt_zero _), hsub, Nat.mod_eq_of_lt (by omega), hfirst]
  refine (pageLoop_returns h.holds (j := maxArgPages - pagesFor n) (by omega) (by omega)
    (fun l _ hl => ?_) (fun hlt => (h.pages _ hlt).mpr (Nat.le_refl _))).bind ?_
  · by_contra hne
    have := (h.pages l (by omega)).mp hne
    omega
  rintro r t ⟨hholds, hif⟩
  by_cases henough : pagesFor (n + size str) ≤ freePages m
  · rw [if_pos (by omega)] at hif
    obtain ⟨rfl, hgot⟩ := hif
    have hpages := h.pages_got (by omega) hgot
    have hroom' : room = 4096 * maxArgPages - 4 := rfl
    refine (copyLoop_returns hholds (by omega) (by omega) (fun q hq hq' => ?_) (by omega)).bind ?_
    · refine (hpages _ (by omega)).mpr ?_
      omega
    rintro r t' ⟨rfl, hpage, hmap, hbytes⟩
    have hholds' := hholds.congr hpage hmap
    rw [returns_pure, if_pos henough]
    refine ⟨hholds', by rw [Nat.sub_sub], ⟨hholds', hn, fun l hl => ?_, ?_, fun q hq hne => ?_⟩, ?_,
      ?_⟩
    · rw [hpage]
      exact hpages l hl
    · rw [freePages_congr hmap]
      have := hgot.free
      omega
    · rw [hbytes q (by omega), if_neg (by omega)]
      rw [hpage, hpages _ (by omega)] at hne
      by_cases hnew : q / 4096 < maxArgPages - pagesFor n
      · exact hgot.byte_new hne hnew
      · have hold := (h.pages (q / 4096) (by omega)).mpr (by omega)
        rw [hgot.byte_same (by omega) hold (by omega)]
        exact h.clear q (by omega) hold
    · refine hstr.congr fun k hk => ?_
      rw [hbytes _ (by omega), if_pos (by omega)]
      congr 1
      omega
    · intro q hq hq'
      rw [hbytes q (by omega), if_neg (by omega)]
      have hold : maxArgPages - pagesFor n ≤ q / 4096 := by
        rw [← div_eq_pagesFor (by omega) (by omega)]
        omega
      exact hgot.byte_same (by omega) ((h.pages _ (by omega)).mpr hold) (by omega)
  · rw [if_neg (by omega)] at hif
    subst hif
    rw [if_neg (by decide), returns_pure, if_neg henough]
    exact ⟨hholds, rfl⟩

theorem copyString_stops (hstr : CString u tmp str)
    (hsize : size str < 2 ^ 31) (hp : p < size str) : ¬Returns (copyString u tmp p) s Q := by
  intro hret
  unfold copyString at hret
  split at hret
  · exact returns_throw hret
  rw [returns_bind, returns_of_eq (lenLoop_eq _ hstr (by omega))] at hret
  simp only [Nat.zero_add] at hret
  have hindex : maxArgPages - subInt p (size str) % 2 ^ 32 / 4096 = 0 := by
    unfold subInt maxArgPages
    omega
  rw [if_neg (Nat.not_lt_zero _), hindex, pageLoop, returns_bind, returns_pure, if_pos rfl,
    returns_bind] at hret
  exact copyLoop_stops hp (by omega) hret

end String

/-! ### All strings of a vector -/

def total (strs : List (List Byte)) : Nat := (strs.map size).sum

def sizes (strs : List (List Byte)) : List Nat := strs.reverse.map size

def Laid (u : User) : Nat → List (List Byte) → Prop
  | _, [] => True
  | p, str :: strs => CString u p str ∧ Laid u (p + size str) strs

/-- Strings of these sizes are copied until the pages run out. -/
def Goes (free : Nat) : Nat → List Nat → Prop
  | _, [] => True
  | n, k :: ks => n + k ≤ room ∧ (pagesFor (n + k) ≤ free → Goes free (n + k) ks)

def Fits (free n : Nat) : Prop := n ≤ room ∧ pagesFor n ≤ free

instance (free n : Nat) : Decidable (Fits free n) := inferInstanceAs (Decidable (_ ∧ _))

section Strings

variable {m : Memory} {s t : ArgPages} {n n' p argv free : Nat} {u : User} {str : List Byte}
  {strs strs' : List (List Byte)} {ks ks' : List Nat} {Q : Nat → ArgPages → Prop}

theorem total_append : total (strs ++ strs') = total strs + total strs' := by
  rw [total, List.map_append, List.sum_append]
  rfl

theorem total_singleton : total [str] = size str := by simp [total]

theorem sum_sizes : (sizes strs).sum = total strs := by
  rw [sizes, List.map_reverse, List.sum_reverse]
  rfl

theorem sizes_concat : sizes (strs ++ [str]) = size str :: sizes strs := by
  simp [sizes]

theorem Laid.append (h : Laid u p strs) (h' : Laid u (p + total strs) strs') :
    Laid u p (strs ++ strs') := by
  induction strs generalizing p with
  | nil => exact h'
  | cons str strs ih =>
    refine ⟨h.1, ih h.2 ?_⟩
    rwa [total, List.map_cons, List.sum_cons, ← Nat.add_assoc] at h'

theorem Laid.congr {u' : User} (h : Laid u p strs)
    (hsame : ∀ q, p ≤ q → q < p + total strs → u' q = u q) : Laid u' p strs := by
  induction strs generalizing p with
  | nil => trivial
  | cons str strs ih =>
    have htotal : total (str :: strs) = size str + total strs := List.sum_cons
    refine ⟨h.1.congr fun k hk => hsame _ (by omega) (by omega), ih h.2 fun q hq hq' => ?_⟩
    exact hsame q (by omega) (by omega)

theorem Fits.mono (h : Fits free n') (hn : n ≤ n') : Fits free n :=
  ⟨Nat.le_trans hn h.1, Nat.le_trans (pagesFor_mono hn) h.2⟩

theorem goes_of_fits (h : Fits free (n + ks.sum)) : Goes free n ks := by
  induction ks generalizing n with
  | nil => trivial
  | cons k ks ih =>
    rw [List.sum_cons, ← Nat.add_assoc] at h
    exact ⟨(h.mono (Nat.le_add_right _ _)).1, fun _ => ih h⟩

theorem goes_append (h : Fits free n) : Goes free n (ks ++ ks') ↔
    Goes free n ks ∧ (Fits free (n + ks.sum) → Goes free (n + ks.sum) ks') := by
  induction ks generalizing n with
  | nil => exact ⟨fun hg => ⟨trivial, fun _ => hg⟩, fun hg => hg.2 h⟩
  | cons k ks ih =>
    rw [List.cons_append, Goes, Goes, List.sum_cons, ← Nat.add_assoc]
    constructor
    · rintro ⟨hk, hrest⟩
      refine ⟨⟨hk, fun hp => ((ih ⟨hk, hp⟩).mp (hrest hp)).1⟩, fun hfits => ?_⟩
      have hp := (hfits.mono (Nat.le_add_right _ _)).2
      exact ((ih ⟨hk, hp⟩).mp (hrest hp)).2 hfits
    · rintro ⟨⟨hk, hrest⟩, hlast⟩
      exact ⟨hk, fun hp => (ih ⟨hk, hp⟩).mpr ⟨hrest hp, hlast⟩⟩

/-- The copy goes well when all fits, or the pages run out before. -/
theorem goes_iff (h : Fits free n) : Goes free n ks ↔
    n + ks.sum ≤ room ∨ ∃ l, l <+: ks ∧ n + l.sum ≤ room ∧ free < pagesFor (n + l.sum) := by
  induction ks generalizing n with
  | nil => exact iff_of_true trivial (.inl h.1)
  | cons k ks ih =>
    constructor
    · rintro ⟨hk, hrest⟩
      by_cases hp : pagesFor (n + k) ≤ free
      · rcases (ih ⟨hk, hp⟩).mp (hrest hp) with hle | ⟨l, hl, hle, hlt⟩
        · rw [List.sum_cons, ← Nat.add_assoc]
          exact .inl hle
        · refine .inr ⟨k :: l, List.cons_prefix_cons.mpr ⟨rfl, hl⟩, ?_⟩
          rw [List.sum_cons, ← Nat.add_assoc]
          exact ⟨hle, hlt⟩
      · refine .inr ⟨[k], List.cons_prefix_cons.mpr ⟨rfl, List.nil_prefix⟩, ?_⟩
        exact ⟨hk, Nat.lt_of_not_le hp⟩
    · rintro (hle | ⟨l, hl, hle, hlt⟩)
      · rw [List.sum_cons, ← Nat.add_assoc] at hle
        exact ⟨Nat.le_trans (Nat.le_add_right _ _) hle, fun hp =>
          (ih ⟨Nat.le_trans (Nat.le_add_right _ _) hle, hp⟩).mpr (.inl hle)⟩
      cases l with
      | nil =>
        have := h.2
        rw [List.sum_nil, Nat.add_zero] at hlt
        omega
      | cons k' l =>
        obtain ⟨rfl, hl'⟩ := List.cons_prefix_cons.mp hl
        rw [List.sum_cons, ← Nat.add_assoc] at hle hlt
        exact ⟨Nat.le_trans (Nat.le_add_right _ _) hle, fun hp =>
          (ih ⟨Nat.le_trans (Nat.le_add_right _ _) hle, hp⟩).mpr (.inr ⟨l, hl', hle, hlt⟩)⟩

theorem Filled.fits (h : Filled m n s) : Fits (freePages m) n :=
  ⟨h.le, h.free ▸ Nat.le_add_left _ _⟩

theorem copyStrings_returns (h : Filled m n s) (hptr : Pointers u argv strs)
    (hsmall : ∀ str ∈ strs, size str < 2 ^ 31) (hgoes : Goes (freePages m) n (sizes strs)) :
    Returns (copyStrings u argv strs.length (room - n)) s fun r t => Holds m t ∧
      if Fits (freePages m) (n + total strs) then
        r = room - (n + total strs) ∧ Filled m (n + total strs) t ∧
          Laid t.byte (room - (n + total strs)) strs ∧
          ∀ q, room - n ≤ q → q < room → t.byte q = s.byte q
      else r = 0 := by
  induction strs using List.reverseRecOn generalizing n s with
  | nil =>
    refine returns_pure.mpr ⟨h.holds, ?_⟩
    rw [show n + total [] = n from rfl, if_pos h.fits]
    exact ⟨rfl, h, trivial, fun _ _ _ => rfl⟩
  | append_singleton strs str ih =>
    obtain ⟨hne, hstr⟩ := hptr.last
    have hsize : size str < 2 ^ 31 := hsmall str (by simp)
    rw [sizes_concat] at hgoes
    obtain ⟨hle, hrest⟩ := hgoes
    have htotal : n + total (strs ++ [str]) = n + size str + total strs := by
      rw [total_append, total_singleton]
      omega
    rw [List.length_append, List.length_singleton, copyStrings, htotal]
    refine (copyString_returns h hstr hne hsize hle).bind ?_
    rintro r t ⟨hholds, hif⟩
    by_cases hp : pagesFor (n + size str) ≤ freePages m
    · rw [if_pos hp] at hif
      obtain ⟨rfl, hfilled, hlast, hkeep⟩ := hif
      refine (ih hfilled hptr.init (fun str hs => hsmall str (by simp [hs])) (hrest hp)).imp ?_
      rintro r t' ⟨hholds', hif'⟩
      refine ⟨hholds', ?_⟩
      by_cases hfits : Fits (freePages m) (n + size str + total strs)
      · rw [if_pos hfits] at hif' ⊢
        obtain ⟨hr, hfilled', hlaid, hkeep'⟩ := hif'
        have hbound := hfits.1
        refine ⟨hr, hfilled', hlaid.append ⟨?_, trivial⟩, fun q hq hq' => ?_⟩
        · rw [show room - (n + size str + total strs) + total strs = room - (n + size str) by omega]
          exact hlast.congr fun k hk => hkeep' _ (by omega) (by omega)
        · rw [hkeep' q (by omega) hq', hkeep q hq hq']
      · rwa [if_neg hfits] at hif' ⊢
    · rw [if_neg hp] at hif
      subst hif
      rw [returns_pure, if_neg fun hfits => hp (hfits.mono (Nat.le_add_right _ _)).2]
      exact ⟨hholds, rfl⟩

theorem copyStrings_stops (h : Filled m n s) (hptr : Pointers u argv strs)
    (hsmall : ∀ str ∈ strs, size str < 2 ^ 31) (hgoes : ¬Goes (freePages m) n (sizes strs)) :
    ¬Returns (copyStrings u argv strs.length (room - n)) s Q := by
  induction strs using List.reverseRecOn generalizing n s with
  | nil => exact absurd trivial hgoes
  | append_singleton strs str ih =>
    intro hret
    obtain ⟨hne, hstr⟩ := hptr.last
    have hsize : size str < 2 ^ 31 := hsmall str (by simp)
    rw [List.length_append, List.length_singleton, copyStrings, returns_bind] at hret
    by_cases hle : n + size str ≤ room
    · obtain ⟨r, t, -, ⟨hret, -, hif⟩⟩ :=
        hret.and_ensures (copyString_returns h hstr hne hsize hle).ensures
      rw [sizes_concat, Goes, not_and, Classical.not_imp] at hgoes
      obtain ⟨hp, hrest⟩ := hgoes hle
      rw [if_pos hp] at hif
      obtain ⟨rfl, hfilled, -⟩ := hif
      exact ih hfilled hptr.init (fun str hs => hsmall str (by simp [hs])) hrest hret
    · have hn := h.le
      exact copyString_stops hstr hsize (by omega) hret

theorem copyStrings_zero (hptr : Pointers u argv strs)
    (hsmall : ∀ str ∈ strs, size str < 2 ^ 31) (hne : strs ≠ []) :
    ¬Returns (copyStrings u argv strs.length 0) s Q := by
  obtain ⟨init, str, rfl⟩ := (List.eq_nil_or_concat' strs).resolve_left hne
  intro hret
  rw [List.length_append, List.length_singleton, copyStrings, returns_bind] at hret
  exact copyString_stops hptr.last.2 (hsmall str (by simp)) (Nat.succ_pos _) hret

end Strings

end Linux001.Exec.Strings
