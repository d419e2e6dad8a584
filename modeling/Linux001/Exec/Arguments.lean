import Linux001.Exec.Strings

/-! The copy of the arguments and the environment in `do_execve`, and what it leaves behind when it
fails. -/

namespace Linux001.Exec.Strings

open Function ProofKit Mm

def freeArgPages : ArgM Unit :=
  (List.range maxArgPages).forM fun i => do
    let s ← get
    match freePage s.mm (s.page i) with
    | .ok mm => set { s with mm }
    | .error e => throw (.mm e)

/-- `do_execve` up to the point of no return: `p`, `argc`, `envc`, or -1. -/
def doExecve (u : User) (argv envp : Nat) : ArgM (Option (Nat × Nat × Nat)) := do
  let argc ← count u argv
  let envc ← count u envp
  let p ← copyStrings u envp envc (4096 * maxArgPages - 4)
  let p ← copyStrings u argv argc p
  if p = 0 then
    freeArgPages
    pure none
  else pure (some (p, argc, envc))

structure Freed (s : ArgPages) (n : Nat) (t : ArgPages) : Prop where
  page : t.page = s.page
  map : ∀ k, t.mm.memMap k =
    if ∃ j < n, s.page j = lowMem + k * 4096 then 0 else s.mm.memMap k

section Free

variable {m : Memory} {s t : ArgPages} {i : Nat}

theorem exists_lt_succ {P : Nat → Prop} {n : Nat} : (∃ j < n + 1, P j) ↔ (∃ j < n, P j) ∨ P n := by
  constructor
  · rintro ⟨j, hj, hP⟩
    rcases Nat.lt_succ_iff_lt_or_eq.mp hj with hlt | rfl
    · exact .inl ⟨j, hlt, hP⟩
    · exact .inr hP
  · rintro (⟨j, hj, hP⟩ | hP)
    · exact ⟨j, Nat.lt_succ_of_lt hj, hP⟩
    · exact ⟨n, Nat.lt_succ_self n, hP⟩

theorem Freed.step (h : Holds m s) (ht : Freed s i t) (hi : i < maxArgPages) :
    ∃ mm, freePage t.mm (t.page i) = .ok mm ∧ Freed s (i + 1) { t with mm } := by
  have hpage : t.page i = s.page i := congrFun ht.page i
  by_cases h0 : s.page i = 0
  · refine ⟨t.mm, ?_, ht.page, fun k => ?_⟩
    · rw [freePage, hpage, h0, if_pos (by decide)]
    · have hne : s.page i ≠ lowMem + k * 4096 := h0 ▸ (page_ne_zero k).symm
      rw [ht.map k]
      simp only [exists_lt_succ, hne, or_false]
  · obtain ⟨k, hk, hnr, -, hone⟩ := h.owned i hi h0
    have hfirst : ¬∃ j < i, s.page j = lowMem + k * 4096 := by
      rintro ⟨j, hj, hj'⟩
      exact absurd (h.distinct i hi j (Nat.lt_trans hj hi) h0 (hnr.trans hj'.symm)) (by omega)
    have hmap : t.mm.memMap k = 1 := by rw [ht.map, if_neg hfirst, hone]
    refine ⟨t.mm.setCount k (t.mm.memMap k - 1), ?_, ht.page, fun k' => ?_⟩
    · have hlt := page_lt hk
      rw [freePage, hpage, hnr, if_neg (by omega), if_neg (by omega), mapNr_page,
        if_pos (by rw [hmap]; decide)]
    rw [Memory.setCount_memMap, hmap]
    by_cases hkk : k' = k
    · rw [hkk, update_self, if_pos ⟨i, Nat.lt_succ_self i, hnr⟩]
      decide
    · have hne : s.page i ≠ lowMem + k' * 4096 := by omega
      rw [update_of_ne hkk, ht.map]
      simp only [exists_lt_succ, hne, or_false]

theorem freeArgPages_returns (h : Holds m s) :
    Returns freeArgPages s fun _ t => t.mm.memMap = m.memMap := by
  have hloop : Returns freeArgPages s fun _ t => Freed s maxArgPages t := by
    refine returns_forM_range (I := Freed s) ⟨rfl, fun k => ?_⟩ fun i t hi ht => ?_
    · rw [if_neg]
      rintro ⟨j, hj, -⟩
      exact Nat.not_lt_zero j hj
    · obtain ⟨mm, hfree, hnext⟩ := ht.step h hi
      rw [returns_bind, returns_get, hfree]
      exact returns_set.mpr hnext
  refine hloop.imp ?_
  rintro - t ⟨-, hmap⟩
  funext k
  rw [hmap]
  split
  · rename_i hheld
    obtain ⟨j, hj, hpage⟩ := hheld
    obtain ⟨k', -, hpage', hfree, -⟩ := h.owned j hj (hpage ▸ page_ne_zero k)
    obtain rfl : k' = k := by omega
    exact hfree.symm
  · rename_i hnot
    exact h.rest k fun i hi heq => hnot ⟨i, hi, heq⟩

end Free

/-- The copy stays in the array, and returns -1 with `mem_map` as before where it fails. -/
def Clean (u : User) (argv envp : Nat) (args envs : List (List Byte)) (m : Memory) : Prop :=
  Returns (doExecve u argv envp) ⟨m, fun _ => 0⟩ fun r t =>
    (¬Fits (freePages m) (total envs + total args) → r = none) ∧
      (r = none → t.mm.memMap = m.memMap)

section Clean

variable {m : Memory} {s : ArgPages} {u : User} {argv envp p : Nat} {args envs : List (List Byte)}
  {Q : Option (Nat × Nat × Nat) → ArgPages → Prop}

theorem finish_returns {argc envc : Nat} (h : Holds m s)
    (hsome : p ≠ 0 → Q (some (p, argc, envc)) s)
    (hnone : p = 0 → ∀ t, t.mm.memMap = m.memMap → Q none t) :
    Returns (if p = 0 then do
        freeArgPages
        pure none
      else pure (some (p, argc, envc))) s Q := by
  refine returns_ite.mpr ⟨fun h0 => ?_, fun h0 => returns_pure.mpr (hsome h0)⟩
  exact (freeArgPages_returns h).bind fun _ t ht => returns_pure.mpr (hnone h0 t ht)

structure Passed (u : User) (argv envp : Nat) (args envs : List (List Byte)) : Prop where
  argv : Vector u argv args
  envp : Vector u envp envs
  argc : args.length < 2 ^ 31
  envc : envs.length < 2 ^ 31
  args_size : ∀ str ∈ args, size str < 2 ^ 31
  envs_size : ∀ str ∈ envs, size str < 2 ^ 31

theorem doExecve_returns (h : Passed u argv envp args envs) :
    Returns (doExecve u argv envp) s Q ↔
      Returns (copyStrings u envp envs.length (room - 0)) s fun p t =>
        Returns (copyStrings u argv args.length p) t fun p t =>
          Returns (if p = 0 then do
              freeArgPages
              pure none
            else pure (some (p, args.length, envs.length))) t Q := by
  unfold doExecve
  rw [returns_bind, returns_of_eq (count_eq h.argv h.argc), returns_bind,
    returns_of_eq (count_eq h.envp h.envc), returns_bind]
  simp only [returns_bind]
  rfl

theorem Clean.goes (h : Passed u argv envp args envs) (hclean : Clean u argv envp args envs m) :
    (args = [] ∨ Fits (freePages m) (total envs)) ∧
      Goes (freePages m) 0 (sizes envs ++ sizes args) := by
  have hstart : Filled m 0 ⟨m, fun _ => 0⟩ := .start
  rw [Clean, doExecve_returns h] at hclean
  have henv : Goes (freePages m) 0 (sizes envs) := by
    by_contra hnot
    exact copyStrings_stops hstart h.envp.pointers h.envs_size hnot hclean
  obtain ⟨p, t, -, hret, -, hif⟩ := hclean.and_ensures
    (copyStrings_returns hstart h.envp.pointers h.envs_size henv).ensures
  rw [Nat.zero_add] at hif
  rw [goes_append hstart.fits, Nat.zero_add, sum_sizes]
  by_cases hfits : Fits (freePages m) (total envs)
  · rw [if_pos hfits] at hif
    obtain ⟨rfl, hfilled, -⟩ := hif
    refine ⟨.inr hfits, henv, fun _ => ?_⟩
    by_contra hnot
    exact copyStrings_stops hfilled h.argv.pointers h.args_size hnot hret
  · rw [if_neg hfits] at hif
    subst hif
    refine ⟨.inl ?_, henv, fun hfits' => absurd hfits' hfits⟩
    by_contra hne
    exact copyStrings_zero h.argv.pointers h.args_size hne hret

theorem clean_of_goes (h : Passed u argv envp args envs)
    (henv : args = [] ∨ Fits (freePages m) (total envs))
    (hgoes : Goes (freePages m) 0 (sizes envs ++ sizes args)) : Clean u argv envp args envs m := by
  have hstart : Filled m 0 ⟨m, fun _ => 0⟩ := .start
  rw [goes_append hstart.fits, Nat.zero_add, sum_sizes] at hgoes
  rw [Clean, doExecve_returns h]
  refine (copyStrings_returns hstart h.envp.pointers h.envs_size hgoes.1).imp ?_
  rintro p t ⟨hholds, hif⟩
  rw [Nat.zero_add] at hif
  by_cases hfits : Fits (freePages m) (total envs)
  · rw [if_pos hfits] at hif
    obtain ⟨rfl, hfilled, -⟩ := hif
    refine (copyStrings_returns hfilled h.argv.pointers h.args_size (hgoes.2 hfits)).imp ?_
    rintro p t' ⟨hholds', hif'⟩
    refine finish_returns hholds' (fun hp => ⟨fun hnot => ?_, nofun⟩)
      (fun _ t'' ht => ⟨fun _ => rfl, fun _ => ht⟩)
    rw [if_neg hnot] at hif'
    exact absurd hif' hp
  · rw [if_neg hfits] at hif
    obtain rfl : args = [] := henv.resolve_right hfits
    subst hif
    refine returns_pure.mpr (finish_returns hholds (fun hp => absurd rfl hp) ?_)
    exact fun _ t' ht => ⟨fun _ => rfl, fun _ => ht⟩

/-- The copy fails cleanly exactly when the environment is copied or there are no arguments, and the
strings fit or the pages run out for strings that do. -/
theorem clean_iff (h : Passed u argv envp args envs) :
    Clean u argv envp args envs m ↔
      (args = [] ∨ Fits (freePages m) (total envs)) ∧
      (total envs + total args ≤ room ∨ ∃ l, l <+: sizes envs ++ sizes args ∧ l.sum ≤ room ∧
        freePages m < pagesFor l.sum) := by
  have hgoes : Goes (freePages m) 0 (sizes envs ++ sizes args) ↔ _ :=
    goes_iff (Filled.start (m := m)).fits
  simp only [Nat.zero_add, List.sum_append, sum_sizes] at hgoes
  rw [← hgoes]
  exact ⟨fun hclean => hclean.goes h, fun hcond => clean_of_goes h hcond.1 hcond.2⟩

end Clean

def pairUser : User := fun a =>
  if a = 0x1001 ∨ a = 0x1011 then 0x20
  else if a = 0x1010 then 0x02
  else if a = 0x2000 then 0x61
  else if a = 0x2002 then 0x62
  else 0

def noPages : Memory := ⟨fun _ => 1, fun _ _ => 0⟩

theorem pairUser_vector {argv : Nat} {b : Byte} (h0 : argv ≠ 0) (hptr : getFsLong pairUser argv ≠ 0)
    (hb : b ≠ 0) (hstr : pairUser (getFsLong pairUser argv) = b)
    (hnul : pairUser (getFsLong pairUser argv + 1) = 0)
    (hnull : getFsLong pairUser (argv + 8) = 0) : Vector pairUser argv [[b]] := by
  rw [Vector, if_neg h0]
  refine ⟨fun i hi => ?_, hnull⟩
  obtain rfl : i = 0 := Nat.lt_one_iff.mp hi
  exact ⟨hptr, hb, hstr, hnul⟩

theorem pairUser_passed : Passed pairUser 0x1010 0x1000 [[0x62]] [[0x61]] where
  argv := pairUser_vector (by decide) (by decide) (by decide) (by decide) (by decide) (by decide)
  envp := pairUser_vector (by decide) (by decide) (by decide) (by decide) (by decide) (by decide)
  argc := by decide
  envc := by decide
  args_size := by decide
  envs_size := by decide

theorem clean_iff_pair :
    Clean pairUser 0x1010 0x1000 [[0x62]] [[0x61]] noPages ↔
      ([[(0x62 : Byte)]] = [] ∨ Fits (freePages noPages) (total [[0x61]])) ∧
      (total [[0x61]] + total [[0x62]] ≤ room ∨ ∃ l, l <+: sizes [[0x61]] ++ sizes [[0x62]] ∧
        l.sum ≤ room ∧ freePages noPages < pagesFor l.sum) :=
  clean_iff pairUser_passed

/-- Without free pages the copy of the argument starts at 0. -/
theorem pairUser_not_clean : ¬Clean pairUser 0x1010 0x1000 [[0x62]] [[0x61]] noPages := by
  intro h
  have hfree : freePages noPages = 0 := by simp [freePages, noPages]
  rcases (h.goes pairUser_passed).1 with hnil | ⟨-, hpages⟩
  · cases hnil
  · rw [hfree] at hpages
    exact absurd hpages (by decide)

end Linux001.Exec.Strings
