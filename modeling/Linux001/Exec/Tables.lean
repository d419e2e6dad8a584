import Linux001.Exec.Arguments

/-! `change_ldt` and `create_tables` of `fs/exec.c`: the strings of a new program in its memory, and
the tables of pointers to them. -/

namespace Linux001.Exec.Strings

open Function ProofKit Mm

def descBase (d : BitVec 64) : Nat :=
  (d.extractLsb' 16 16).toNat + 2 ^ 16 * (d.extractLsb' 32 8).toNat +
    2 ^ 24 * (d.extractLsb' 56 8).toNat

/-- The user data segment of the GDT, which the selector 0x23 names. -/
def userData : BitVec 64 := 0x00CFF2000000FFFF

/-- Linear memory, where a missing page reads as zeros, and the base of `fs`. -/
structure Linear where
  fs : Nat
  mem : User

/-- Linear memory after `put_page(page, address)`. -/
def putPage (mm : Memory) (page address : Nat) (mem : User) : User := fun a =>
  if address ≤ a ∧ a < address + 4096 then pageBytes (mm.mem page) (pageOffset a) else mem a

def putPages (s : ArgPages) : Nat → Nat → User → User
  | 0, _, mem => mem
  | i + 1, dataBase, mem =>
    putPages s i (dataBase - 4096)
      (if s.page i ≠ 0 then putPage s.mm (s.page i) (dataBase - 4096) mem else mem)

def dataLimit : Nat := 0x4000000

def changeLdt (dataBase : Nat) (s : ArgPages) (mem : User) : Linear :=
  ⟨descBase userData, putPages s maxArgPages (dataBase + dataLimit) mem⟩

abbrev TableM := EStateM Stop Linear

def getFsByte (addr : Nat) : TableM Byte := do
  let s ← get
  pure (s.mem (s.fs + addr))

def storeLong (mem : User) (addr val : Nat) : User := fun a =>
  if addr ≤ a ∧ a < addr + 8 then BitVec.ofNat 8 (val / 256 ^ (a - addr)) else mem a

def putFsLong (val addr : Nat) : TableM Unit :=
  modify fun s => { s with mem := storeLong s.mem (s.fs + addr) val }

/-- `while (get_fs_byte(p++))`. -/
def scanLoop : Nat → Nat → TableM Nat
  | 0, _ => throw .endless
  | fuel + 1, p => do
    if (← getFsByte p) ≠ 0 then scanLoop fuel (p + 1) else pure (p + 1)

/-- A loop of `create_tables`: the next string and the next place in the table. -/
def pointerLoop : Nat → Nat → Nat → TableM (Nat × Nat)
  | 0, p, table => pure (p, table)
  | n + 1, p, table => do
    putFsLong p table
    let p ← scanLoop (2 ^ 64) p
    pointerLoop n p (table + 8)

/-- A loop of `create_tables` and the NULL behind the pointers: the next string. -/
def makeTable (n p table : Nat) : TableM Nat := do
  let (p, last) ← pointerLoop n p table
  putFsLong 0 last
  pure p

/-- `create_tables`.  The stack is so far from 0 that `sp` does not wrap. -/
def createTables (p argc envc : Nat) : TableM Nat := do
  let sp := p % 2 ^ 32 / 4 * 4
  let envp := sp - 8 * (envc + 1)
  let argv := envp - 8 * (argc + 1)
  putFsLong envp (argv - 8)
  putFsLong argv (argv - 16)
  putFsLong argc (argv - 24)
  let p ← makeTable argc p argv
  let _ ← makeTable envc p envp
  pure (argv - 24)

/-! ### `put_page` -/

/-- The linear memory that the page tables show. -/
def linear (s : Memory) : User := fun a => (readByte s a).getD 0

/-- A `put_page` that succeeds changes the linear memory as `putPage` does. -/
theorem linear_putPage {s s' : Memory} {got : List Nat} {page address a : Nat} (h : Inv s got)
    (hp : address / 4096 ∈ userPages) (halign : address % 4096 = 0)
    (hnone : s.view (address / 4096) = none) (hpage : page ∈ got)
    (hput : Mm.putPage s page address = (some page, s')) (ha : a / 4096 ∈ userPages) :
    linear s' a = putPage s page address (linear s) a := by
  have hbyte : ∀ t, linear t a =
      ((t.view (a / 4096)).map fun v => pageBytes v.2 (pageOffset a)).getD 0 := by
    intro t
    rw [linear, readByte, lookup_page, Memory.view, Option.map_map]
    rfl
  rcases putPage_spec h hp hnone hpage (fun _ => mem_filter_ne) with
    ⟨t, ht, -⟩ | ⟨t, ht, -, hview⟩
  · cases ht.symm.trans hput
  cases ht.symm.trans hput
  rw [hbyte, hview ha, putPage, hbyte]
  by_cases hin : address ≤ a ∧ a < address + 4096
  · rw [if_pos hin, show a / 4096 = address / 4096 by omega, update_self]
    rfl
  · rw [if_neg hin, update_of_ne (by omega)]

/-! ### Words in memory -/

def Words (u : User) (a : Nat) (l : List Nat) : Prop :=
  ∀ i, ∀ h : i < l.length, getFsLong u (a + 8 * i) = l[i]

section Words

variable {u u' : User} {a addr n v : Nat} {l : List Nat} {l' : List Nat}

theorem readLe_congr (h : ∀ k < n, u' (addr + k) = u (addr + k)) :
    readLe u' addr n = readLe u addr n := by
  induction n generalizing addr with
  | zero => rfl
  | succ n ih =>
    have h0 : u' addr = u addr := h 0 (Nat.succ_pos n)
    have hrest : readLe u' (addr + 1) n = readLe u (addr + 1) n := by
      refine ih fun k hk => ?_
      rw [Nat.add_assoc, Nat.add_comm 1]
      exact h (k + 1) (Nat.succ_lt_succ hk)
    rw [readLe, readLe, h0, hrest]

theorem readLe_digits (h : ∀ k < n, u (addr + k) = BitVec.ofNat 8 (v / 256 ^ k)) :
    readLe u addr n = v % 256 ^ n := by
  induction n generalizing addr v with
  | zero => rw [readLe, Nat.pow_zero, Nat.mod_one]
  | succ n ih =>
    have h0 : u addr = BitVec.ofNat 8 v := by
      have := h 0 (Nat.succ_pos n)
      rwa [Nat.pow_zero, Nat.div_one] at this
    have hrest : readLe u (addr + 1) n = v / 256 % 256 ^ n := by
      refine ih fun k hk => ?_
      rw [Nat.add_assoc, Nat.add_comm 1, h (k + 1) (Nat.succ_lt_succ hk), Nat.div_div_eq_div_mul,
        Nat.pow_succ, Nat.mul_comm 256]
    have hpow : 256 ^ (n + 1) = 256 * 256 ^ n := by rw [Nat.pow_succ, Nat.mul_comm]
    rw [readLe, h0, hrest, BitVec.toNat_ofNat, hpow, Nat.mod_mul]

theorem getFsLong_storeLong (hv : v < 2 ^ 64) : getFsLong (storeLong u addr v) addr = v := by
  have hbytes : ∀ k < 8, storeLong u addr v (addr + k) = BitVec.ofNat 8 (v / 256 ^ k) := by
    intro k hk
    rw [storeLong, if_pos (by omega), Nat.add_sub_cancel_left]
  exact (readLe_digits hbytes).trans (Nat.mod_eq_of_lt hv)

theorem Words.congr (h : Words u a l)
    (hsame : ∀ x, a ≤ x → x < a + 8 * l.length → u' x = u x) : Words u' a l := by
  intro i hi
  rw [← h i hi]
  exact readLe_congr fun k hk => hsame _ (by omega) (by omega)

theorem Words.store (h : Words u a l) (hv : v < 2 ^ 64) :
    Words (storeLong u (a + 8 * l.length) v) a (l ++ [v]) := by
  have hsame : Words (storeLong u (a + 8 * l.length) v) a l :=
    h.congr fun x _ hx => if_neg (by omega)
  intro i hi
  rw [List.length_append, List.length_singleton] at hi
  rcases Nat.lt_succ_iff_lt_or_eq.mp hi with hlt | rfl
  · rw [List.getElem_append_left hlt]
    exact hsame i hlt
  · rw [List.getElem_concat_length rfl]
    exact getFsLong_storeLong hv

theorem Words.cons (h : Words u (a + 8) l) (hv : v < 2 ^ 64) :
    Words (storeLong u a v) a (v :: l) := by
  intro i hi
  cases i with
  | zero => exact getFsLong_storeLong hv
  | succ i =>
    have hsame : Words (storeLong u a v) (a + 8) l := h.congr fun x hx _ => if_neg (by omega)
    rw [Nat.mul_succ, Nat.add_comm (8 * i), ← Nat.add_assoc]
    exact hsame i (Nat.lt_of_succ_lt_succ hi)

theorem Words.left (h : Words u a (l ++ l')) : Words u a l := by
  intro i hi
  have := h i (by rw [List.length_append]; omega)
  rwa [List.getElem_append_left hi] at this

theorem Words.right (h : Words u a (l ++ l')) : Words u (a + 8 * l.length) l' := by
  intro i hi
  have := h (l.length + i) (by rw [List.length_append]; omega)
  rw [Nat.mul_add, ← Nat.add_assoc] at this
  simpa using this

end Words

/-! ### The tables -/

def starts : Nat → List (List Byte) → List Nat
  | _, [] => []
  | p, str :: strs => p :: starts (p + size str) strs

def Linear.see (s : Linear) : User := fun a => s.mem (s.fs + a)

section Tables

variable {s : Linear} {u : User} {a p fuel table n v : Nat} {str : List Byte}
  {strs args envs : List (List Byte)} {l : List Nat}

theorem length_starts : (starts p strs).length = strs.length := by
  induction strs generalizing p with
  | nil => rfl
  | cons str strs ih => rw [starts, List.length_cons, ih, List.length_cons]

theorem see_storeLong {fs : Nat} {mem : User} :
    (Linear.mk fs (storeLong mem (fs + a) v)).see = storeLong (Linear.mk fs mem).see a v := by
  funext x
  simp only [Linear.see, storeLong, Nat.add_assoc, Nat.add_le_add_iff_left, Nat.add_lt_add_iff_left,
    Nat.add_sub_add_left]

theorem scanLoop_eq (h : CString s.see p str) (hfuel : size str ≤ fuel) :
    scanLoop fuel p s = .ok (p + size str) s := by
  induction str generalizing fuel p with
  | nil =>
    obtain ⟨fuel, rfl⟩ : ∃ m, fuel = m + 1 :=
      Nat.exists_eq_succ_of_ne_zero (by rintro rfl; cases hfuel)
    have hnul : s.mem (s.fs + p) = 0 := h
    rw [scanLoop, bind_of_eq (rfl : getFsByte p s = .ok (s.mem (s.fs + p)) s),
      if_neg (not_not.mpr hnul)]
    rfl
  | cons b str ih =>
    obtain ⟨fuel, rfl⟩ : ∃ m, fuel = m + 1 :=
      Nat.exists_eq_succ_of_ne_zero (by rintro rfl; cases hfuel)
    have hne : s.mem (s.fs + p) ≠ 0 := fun h0 => h.1 (h.2.1.symm.trans h0)
    rw [scanLoop, bind_of_eq (rfl : getFsByte p s = .ok (s.mem (s.fs + p)) s), if_pos hne,
      ih h.2.2 (Nat.le_of_succ_le_succ hfuel)]
    simp only [size, List.length_cons, Nat.add_assoc, Nat.add_comm 1]

theorem scanLoop_ensures : Ensures (scanLoop fuel p) s fun _ t => t = s := by
  induction fuel generalizing p with
  | zero => exact ensures_throw
  | succ fuel ih =>
    refine ensures_ite.mpr ⟨fun _ => ih, fun _ => ensures_pure.mpr rfl⟩

theorem pointerLoop_returns (hwords : Words s.see a l) (htable : table = a + 8 * l.length)
    (hlaid : Laid s.see p strs) (hbelow : table + 8 * strs.length ≤ p)
    (hp : p + total strs < 2 ^ 64) :
    Returns (pointerLoop strs.length p table) s fun r t =>
      r = (p + total strs, table + 8 * strs.length) ∧ Words t.see a (l ++ starts p strs) ∧
        ∀ x, table + 8 * strs.length ≤ x → t.see x = s.see x := by
  induction strs generalizing s p table l with
  | nil =>
    refine returns_pure.mpr ⟨rfl, ?_, fun _ _ => rfl⟩
    rwa [starts, List.append_nil]
  | cons str strs ih =>
    have htotal : total (str :: strs) = size str + total strs := List.sum_cons
    have hlen : (str :: strs).length = strs.length + 1 := rfl
    obtain ⟨hstr, hrest⟩ := hlaid
    obtain ⟨t, ht⟩ : ∃ t, t = Linear.mk s.fs (storeLong s.mem (s.fs + table) p) := ⟨_, rfl⟩
    have hsee : t.see = storeLong s.see table p := ht ▸ see_storeLong
    have hkeep : ∀ x, table + 8 ≤ x → t.see x = s.see x := by
      intro x hx
      rw [hsee]
      exact if_neg (by omega)
    have hwords' : Words t.see a (l ++ [p]) := by
      rw [hsee, htable]
      exact hwords.store (by omega)
    have hstr' : CString t.see p str := hstr.congr fun k _ => hkeep _ (by omega)
    have hrest' : Laid t.see (p + size str) strs := hrest.congr fun x hx _ => hkeep x (by omega)
    have htable' : table + 8 = a + 8 * (l ++ [p]).length := by
      rw [htable, List.length_append, List.length_singleton]
      omega
    have hloop := ih hwords' htable' hrest' (by omega) (by omega)
    rw [hlen, pointerLoop, returns_bind, putFsLong, returns_modify, ← ht, returns_bind,
      returns_of_eq (scanLoop_eq hstr' (by omega))]
    refine hloop.imp ?_
    rintro r t' ⟨rfl, hwords'', hkeep'⟩
    refine ⟨?_, ?_, fun x hx => ?_⟩
    · rw [htotal, Nat.add_assoc, Nat.add_assoc, Nat.mul_succ, Nat.add_comm 8]
    · rwa [List.append_assoc] at hwords''
    · rw [hkeep' x (by omega), hkeep x (by omega)]

theorem pointerLoop_ensures : Ensures (pointerLoop n p table) s fun r t =>
    r.2 = table + 8 * n ∧ t.fs = s.fs ∧
      ∀ x, ¬(s.fs + table ≤ x ∧ x < s.fs + table + 8 * n) → t.mem x = s.mem x := by
  induction n generalizing s p table with
  | zero => exact ensures_pure.mpr ⟨rfl, rfl, fun _ _ => rfl⟩
  | succ n ih =>
    refine scanLoop_ensures.bind ?_
    rintro p t rfl
    refine ih.imp ?_
    rintro r t ⟨hr, hfs, hmem⟩
    refine ⟨by omega, hfs, fun x hx => ?_⟩
    rw [hmem x (by simp only; omega)]
    exact if_neg (by omega)

theorem makeTable_returns (hwords : Words s.see a l) (htable : table = a + 8 * l.length)
    (hlaid : Laid s.see p strs) (hbelow : table + 8 * (strs.length + 1) ≤ p)
    (hp : p + total strs < 2 ^ 64) :
    Returns (makeTable strs.length p table) s fun r t =>
      r = p + total strs ∧ Words t.see a (l ++ (starts p strs ++ [0])) ∧
        ∀ x, table + 8 * (strs.length + 1) ≤ x → t.see x = s.see x := by
  refine (pointerLoop_returns hwords htable hlaid (by omega) hp).bind ?_
  rintro r t ⟨rfl, hwords', hkeep⟩
  simp only [putFsLong, returns_bind, returns_modify, returns_pure]
  refine ⟨trivial, ?_, fun x hx => ?_⟩
  · have hend : table + 8 * strs.length = a + 8 * (l ++ starts p strs).length := by
      rw [List.length_append, length_starts]
      omega
    rw [see_storeLong, hend, ← List.append_assoc]
    exact hwords'.store (by decide)
  · rw [see_storeLong, ← hkeep x (by omega)]
    exact if_neg (by omega)

theorem makeTable_ensures : Ensures (makeTable n p table) s fun _ t => t.fs = s.fs ∧
    ∀ x, ¬(s.fs + table ≤ x ∧ x < s.fs + table + 8 * (n + 1)) → t.mem x = s.mem x := by
  refine pointerLoop_ensures.bind ?_
  rintro ⟨p, last⟩ t ⟨rfl, hfs, hmem⟩
  simp only [putFsLong, ensures_bind, ensures_modify, ensures_pure]
  refine ⟨hfs, fun x hx => ?_⟩
  rw [← hmem x (by omega), hfs]
  exact if_neg (by omega)

def envpAt (p envc : Nat) : Nat := p % 2 ^ 32 / 4 * 4 - 8 * (envc + 1)

def argvAt (p argc envc : Nat) : Nat := envpAt p envc - 8 * (argc + 1)

def stack (p : Nat) (args envs : List (List Byte)) : List Nat :=
  [args.length, argvAt p args.length envs.length, envpAt p envs.length] ++
    (starts p args ++ [0]) ++ (starts (p + total args) envs ++ [0])

structure Below (p argc envc : Nat) : Prop where
  small : p < 2 ^ 32
  room : 8 * (argc + envc + 6) ≤ p

theorem Below.bounds {argc envc : Nat} (h : Below p argc envc) :
    24 < argvAt p argc envc ∧ argvAt p argc envc + 8 * (argc + 1) = envpAt p envc ∧
      envpAt p envc + 8 * (envc + 1) ≤ p := by
  obtain ⟨hsmall, hroom⟩ := h
  unfold argvAt envpAt
  omega

theorem createTables_eq {argc envc : Nat} :
    createTables p argc envc = (do
      putFsLong (envpAt p envc) (argvAt p argc envc - 8)
      putFsLong (argvAt p argc envc) (argvAt p argc envc - 16)
      putFsLong argc (argvAt p argc envc - 24)
      let q ← makeTable argc p (argvAt p argc envc)
      let _ ← makeTable envc q (envpAt p envc)
      pure (argvAt p argc envc - 24)) := rfl

theorem createTables_returns (hbelow : Below p args.length envs.length) (hargs : Laid s.see p args)
    (henvs : Laid s.see (p + total args) envs) (htotal : total args + total envs < 2 ^ 32) :
    Returns (createTables p args.length envs.length) s fun sp t =>
      sp = argvAt p args.length envs.length - 24 ∧ Words t.see sp (stack p args envs) ∧
        ∀ x, p ≤ x → t.see x = s.see x := by
  obtain ⟨hargv, henvp, hend⟩ := hbelow.bounds
  have hsmall := hbelow.small
  rw [createTables_eq]
  unfold stack
  generalize argvAt p args.length envs.length = argv at *
  generalize envpAt p envs.length = envp at *
  simp only [putFsLong, returns_bind, returns_modify, returns_pure]
  -- the three words are stored downwards
  obtain ⟨t, ht⟩ : ∃ t, t = Linear.mk s.fs (storeLong (storeLong (storeLong s.mem
    (s.fs + (argv - 8)) envp) (s.fs + (argv - 16)) argv) (s.fs + (argv - 24)) args.length) :=
    ⟨_, rfl⟩
  have hsee : t.see = storeLong (storeLong (storeLong s.see (argv - 8) envp) (argv - 16) argv)
      (argv - 24) args.length := by
    rw [ht, see_storeLong, see_storeLong, see_storeLong]
  have hkeep : ∀ x, argv ≤ x → t.see x = s.see x := by
    intro x hx
    rw [hsee]
    refine (if_neg (by omega)).trans ((if_neg (by omega)).trans (if_neg (by omega)))
  have hwords : Words t.see (argv - 24) [args.length, argv, envp] := by
    rw [hsee]
    refine Words.cons ?_ (by omega)
    rw [show argv - 24 + 8 = argv - 16 by omega]
    refine Words.cons ?_ (by omega)
    rw [show argv - 16 + 8 = argv - 8 by omega]
    exact Words.cons (fun i hi => absurd hi (Nat.not_lt_zero i)) (by omega)
  rw [← ht]
  refine (makeTable_returns hwords (show argv = argv - 24 + 8 * 3 by omega)
    (hargs.congr fun x hx _ => hkeep x (by omega)) (by omega) (by omega)).imp ?_
  rintro q t1 ⟨rfl, hwords1, hkeep1⟩
  refine (makeTable_returns hwords1 ?_ (henvs.congr fun x hx _ => ?_) (by omega) (by omega)).imp ?_
  · simp only [List.length_append, length_starts, List.length_cons, List.length_nil]
    omega
  · rw [hkeep1 x (by omega), hkeep x (by omega)]
  rintro q t2 ⟨rfl, hwords2, hkeep2⟩
  refine ⟨trivial, hwords2, fun x hx => ?_⟩
  rw [hkeep2 x (by omega), hkeep1 x (by omega), hkeep x (by omega)]

theorem createTables_ensures {argc envc : Nat} (hbelow : Below p argc envc) :
    Ensures (createTables p argc envc) s fun sp t => sp = argvAt p argc envc - 24 ∧ t.fs = s.fs ∧
      ∀ x, ¬(s.fs ≤ x ∧ x < s.fs + p) → t.mem x = s.mem x := by
  obtain ⟨hargv, henvp, hend⟩ := hbelow.bounds
  rw [createTables_eq]
  generalize argvAt p argc envc = argv at *
  generalize envpAt p envc = envp at *
  simp only [putFsLong, ensures_bind, ensures_modify, ensures_pure]
  refine makeTable_ensures.imp ?_
  rintro q t1 ⟨hfs1, hmem1⟩
  refine makeTable_ensures.imp ?_
  rintro q t2 ⟨hfs2, hmem2⟩
  refine ⟨trivial, hfs2.trans hfs1, fun x hx => ?_⟩
  rw [hmem2 x (by rw [hfs1]; simp only; omega), hmem1 x (by simp only; omega)]
  exact (if_neg (by omega)).trans ((if_neg (by omega)).trans (if_neg (by omega)))

end Tables

/-! ### The memory of the new program -/

def argBase : Nat := dataLimit - 4096 * maxArgPages

def InTable (table n x : Nat) : Prop := table ≤ x ∧ x < table + 8 * (n + 1)

def InString (u : User) (argv : Nat) (strs : List (List Byte)) (x : Nat) : Prop :=
  ∃ i, ∃ h : i < strs.length,
    getFsLong u (argv + 8 * i) ≤ x ∧ x < getFsLong u (argv + 8 * i) + size strs[i]

/-- `argc`, `argv` and `envp` point to the strings, and nothing overlaps. -/
structure Handed (u : User) (sp : Nat) (args envs : List (List Byte)) : Prop where
  argc : getFsLong u sp = args.length
  argv_ne : getFsLong u (sp + 8) ≠ 0
  envp_ne : getFsLong u (sp + 16) ≠ 0
  argv : StringVector u (getFsLong u (sp + 8)) args
  envp : StringVector u (getFsLong u (sp + 16)) envs
  apart : ∀ x, InTable (getFsLong u (sp + 8)) args.length x ∨
      InTable (getFsLong u (sp + 16)) envs.length x →
    ¬InString u (getFsLong u (sp + 8)) args x ∧ ¬InString u (getFsLong u (sp + 16)) envs x

/-- The arguments and the environment arrive in the process of slot `nr`. -/
def RoundTrip (nr : Nat) (u : User) (argv envp : Nat) (args envs : List (List Byte)) (m : Memory)
    (mem : User) : Prop :=
  Returns (doExecve u argv envp) ⟨m, fun _ => 0⟩ fun r s =>
    ∃ p argc envc, r = some (p, argc, envc) ∧
    Returns (createTables (p + (dataLimit - 4096 * maxArgPages)) argc envc)
      (changeLdt (slotBase nr) s mem) fun sp t =>
        Handed (fun a => t.mem (slotBase nr + a)) sp args envs

section RoundTrip

variable {m : Memory} {s : ArgPages} {u u' mem : User} {argv envp nr i n p x lo : Nat}
  {strs args envs : List (List Byte)}

theorem pageOffset_add (hlo : lo % 4096 = 0) : pageOffset (lo + x) = pageOffset x := by
  apply Fin.ext
  change (lo + x) % 4096 = x % 4096
  omega

theorem putPages_eq (hlo : lo % 4096 = 0) : putPages s i (lo + 4096 * i) mem x =
    if lo ≤ x ∧ x < lo + 4096 * i ∧ s.page ((x - lo) / 4096) ≠ 0 then s.byte (x - lo)
      else mem x := by
  induction i generalizing mem with
  | zero => rw [putPages, if_neg (by omega)]
  | succ i ih =>
    rw [putPages, show lo + 4096 * (i + 1) - 4096 = lo + 4096 * i by omega, ih]
    by_cases hin : lo ≤ x ∧ x < lo + 4096 * i
    · have hmem : (if s.page i ≠ 0 then putPage s.mm (s.page i) (lo + 4096 * i) mem else mem) x =
          mem x := by
        split
        · exact if_neg (by omega)
        · rfl
      rw [hmem]
      simp only [hin, show x < lo + 4096 * (i + 1) by omega]
    · rw [if_neg fun h => hin ⟨h.1, h.2.1⟩]
      by_cases hpage : lo + 4096 * i ≤ x ∧ x < lo + 4096 * i + 4096
      · have hdiv : (x - lo) / 4096 = i := by omega
        have hoff : pageOffset x = pageOffset (x - lo) := by
          rw [← pageOffset_add (x := x - lo) hlo, Nat.add_sub_cancel' (by omega)]
        rw [ArgPages.byte, hdiv]
        by_cases h0 : s.page i = 0
        · rw [if_neg (not_not.mpr h0), if_neg fun h => h.2.2 h0]
        · rw [if_pos h0, if_pos ⟨by omega, by omega, h0⟩, ← hoff]
          exact if_pos hpage
      · have hout : ¬(lo ≤ x ∧ x < lo + 4096 * (i + 1) ∧ s.page ((x - lo) / 4096) ≠ 0) := by omega
        split
        · exact if_neg hpage
        · rfl

theorem changeLdt_mem : (changeLdt (slotBase nr) s mem).mem (slotBase nr + x) =
    if argBase ≤ x ∧ x < dataLimit ∧ s.page ((x - argBase) / 4096) ≠ 0 then s.byte (x - argBase)
    else mem (slotBase nr + x) := by
  have hlo : (slotBase nr + argBase) % 4096 = 0 := by
    unfold slotBase argBase dataLimit maxArgPages
    omega
  have htop : slotBase nr + dataLimit = slotBase nr + argBase + 4096 * maxArgPages := by
    unfold argBase dataLimit maxArgPages
    omega
  rw [changeLdt]
  simp only
  rw [htop, putPages_eq hlo, Nat.add_sub_add_left]
  have hiff : (slotBase nr + argBase ≤ slotBase nr + x ∧
      slotBase nr + x < slotBase nr + argBase + 4096 * maxArgPages ∧
        s.page ((x - argBase) / 4096) ≠ 0) ↔
      (argBase ≤ x ∧ x < dataLimit ∧ s.page ((x - argBase) / 4096) ≠ 0) := by
    omega
  simp only [hiff]

theorem Laid.shift {d : Nat} (h : Laid u p strs)
    (hcopy : ∀ q, p ≤ q → q < p + total strs → u' (d + q) = u q) : Laid u' (d + p) strs := by
  induction strs generalizing p with
  | nil => trivial
  | cons str strs ih =>
    have htotal : total (str :: strs) = size str + total strs := List.sum_cons
    refine ⟨h.1.congr fun k hk => ?_, ?_⟩
    · rw [Nat.add_assoc]
      exact hcopy _ (by omega) (by omega)
    · rw [Nat.add_assoc]
      exact ih h.2 fun q hq hq' => hcopy q (by omega) (by omega)

theorem length_le_total : strs.length ≤ total strs := by
  induction strs with
  | nil => exact Nat.le_refl _
  | cons str strs ih =>
    have htotal : total (str :: strs) = size str + total strs := List.sum_cons
    have hsize : size str = str.length + 1 := rfl
    rw [List.length_cons]
    omega

theorem le_of_mem_starts (h : x ∈ starts p strs) : p ≤ x := by
  induction strs generalizing p with
  | nil => cases h
  | cons str strs ih =>
    rcases List.mem_cons.mp h with rfl | h
    · exact Nat.le_refl _
    · exact Nat.le_trans (Nat.le_add_right _ _) (ih h)

theorem Words.pointers (hwords : Words u n (starts p strs)) (hlaid : Laid u p strs) (hp : 0 < p) :
    Pointers u n strs := by
  induction strs generalizing n p with
  | nil => exact fun i hi => absurd hi (Nat.not_lt_zero i)
  | cons str strs ih =>
    intro i hi
    cases i with
    | zero =>
      have hfirst : getFsLong u (n + 8 * 0) = p := hwords 0 (Nat.succ_pos _)
      rw [hfirst]
      exact ⟨by omega, hlaid.1⟩
    | succ i =>
      have hrest : Words u (n + 8) (starts (p + size str) strs) := Words.right (l := [p]) hwords
      have := ih hrest hlaid.2 (by omega) i (Nat.lt_of_succ_lt_succ hi)
      rwa [Nat.add_assoc, Nat.add_comm 8, ← Nat.mul_succ] at this

theorem Words.not_inString (hwords : Words u n (starts p strs)) (hx : x < p) :
    ¬InString u n strs x := by
  rintro ⟨i, hi, hle, -⟩
  have hi' : i < (starts p strs).length := length_starts.symm ▸ hi
  rw [hwords i hi'] at hle
  have := le_of_mem_starts (List.getElem_mem hi')
  omega

theorem handed_of_words {sp : Nat} (hsp : sp + 24 = argvAt p args.length envs.length)
    (hbelow : Below p args.length envs.length) (hwords : Words u sp (stack p args envs))
    (hargs : Laid u p args) (henvs : Laid u (p + total args) envs) : Handed u sp args envs := by
  obtain ⟨hpos, henvp, hend⟩ := hbelow.bounds
  have htables : Words u (argvAt p args.length envs.length) (starts p args ++ [0]) := by
    rw [← hsp]
    exact hwords.left.right
  have htables' : Words u (envpAt p envs.length) (starts (p + total args) envs ++ [0]) := by
    have := hwords.right
    rw [List.length_append, List.length_append, length_starts] at this
    rwa [← henvp, ← hsp, Nat.add_assoc, show 24 + 8 * (args.length + 1) =
      8 * (3 + (args.length + 1)) by omega]
  have hargv : getFsLong u (sp + 8) = argvAt p args.length envs.length :=
    hwords.left.left 1 (by simp)
  have henv : getFsLong u (sp + 16) = envpAt p envs.length := hwords.left.left 2 (by simp)
  have hnull : getFsLong u (argvAt p args.length envs.length + 8 * args.length) = 0 := by
    have := htables.right 0 Nat.one_pos
    rwa [length_starts] at this
  have hnull' : getFsLong u (envpAt p envs.length + 8 * envs.length) = 0 := by
    have := htables'.right 0 Nat.one_pos
    rwa [length_starts] at this
  refine ⟨hwords.left.left 0 (by simp), by omega, by omega, ?_, ?_, fun x hx => ?_⟩
  · rw [hargv]
    exact ⟨htables.left.pointers hargs (by omega), hnull⟩
  · rw [henv]
    exact ⟨htables'.left.pointers henvs (by omega), hnull'⟩
  · rw [hargv, henv] at hx ⊢
    have hlt : x < p := by
      unfold InTable at hx
      omega
    exact ⟨htables.left.not_inString hlt, htables'.left.not_inString (by omega)⟩

theorem doExecve_fits (h : Passed u argv envp args envs)
    (hfits : Fits (freePages m) (total envs + total args)) (hlt : total envs + total args < room) :
    Returns (doExecve u argv envp) ⟨m, fun _ => 0⟩ fun r s =>
      r = some (room - (total envs + total args), args.length, envs.length) ∧
        Filled m (total envs + total args) s ∧
        Laid s.byte (room - (total envs + total args)) args ∧
        Laid s.byte (room - (total envs + total args) + total args) envs := by
  have hfits' : Fits (freePages m) (total envs) := hfits.mono (Nat.le_add_right _ _)
  have henv : Goes (freePages m) 0 (sizes envs) := goes_of_fits (by rwa [Nat.zero_add, sum_sizes])
  have harg : Goes (freePages m) (total envs) (sizes args) := goes_of_fits (by rwa [sum_sizes])
  rw [doExecve_returns h]
  refine (copyStrings_returns .start h.envp.pointers h.envs_size henv).imp ?_
  rintro p s ⟨-, hif⟩
  rw [Nat.zero_add, if_pos hfits'] at hif
  obtain ⟨rfl, hfilled, hlaid, -⟩ := hif
  refine (copyStrings_returns hfilled h.argv.pointers h.args_size harg).imp ?_
  rintro p t ⟨-, hif⟩
  rw [if_pos hfits] at hif
  obtain ⟨rfl, hfilled', hlaid', hkeep⟩ := hif
  rw [if_neg (by omega), returns_pure]
  refine ⟨rfl, hfilled', hlaid', ?_⟩
  rw [show room - (total envs + total args) + total args = room - total envs by omega]
  exact hlaid.congr fun q hq hq' => hkeep q hq (by omega)

end RoundTrip

section Base

variable {m : Memory} {s : ArgPages} {u mem : User} {argv envp nr : Nat}
  {args envs : List (List Byte)}

theorem below_of_lt (hlt : total envs + total args < room) :
    Below (room - (total envs + total args) + argBase) args.length envs.length := by
  have hargs : args.length ≤ total args := length_le_total
  have henvs : envs.length ≤ total envs := length_le_total
  unfold room argBase dataLimit maxArgPages at *
  exact ⟨by omega, by omega⟩

theorem handed_of_zero (hlt : total envs + total args < room)
    (hfilled : Filled m (total envs + total args) s)
    (hargs : Laid s.byte (room - (total envs + total args)) args)
    (henvs : Laid s.byte (room - (total envs + total args) + total args) envs) :
    Returns (createTables (room - (total envs + total args) + argBase) args.length envs.length)
      (changeLdt (slotBase 0) s mem) fun sp t =>
        Handed (fun a => t.mem (slotBase 0 + a)) sp args envs := by
  have hfs : (changeLdt (slotBase 0) s mem).fs = slotBase 0 :=
    show descBase userData = slotBase 0 by decide
  have hbelow := below_of_lt hlt
  have hpos := hbelow.bounds.1
  have hsee : ∀ q, room - (total envs + total args) ≤ q → q < room →
      (changeLdt (slotBase 0) s mem).see (argBase + q) = s.byte q := by
    intro q hq hq'
    have hpage : s.page (q / 4096) ≠ 0 := by
      refine (hfilled.pages _ (by unfold room at *; omega)).mpr ?_
      rw [← div_eq_pagesFor hfilled.le (by omega)]
      exact Nat.div_le_div_right hq
    have htop : argBase + q < dataLimit := by
      unfold argBase dataLimit room maxArgPages at *
      omega
    rw [Linear.see, hfs, changeLdt_mem, Nat.add_sub_cancel_left,
      if_pos ⟨Nat.le_add_right _ _, htop, hpage⟩]
  have hargs' := hargs.shift (d := argBase) fun q hq hq' => hsee q hq (by omega)
  have henvs' := henvs.shift (d := argBase) fun q hq hq' => hsee q (by omega) (by omega)
  rw [Nat.add_comm argBase] at hargs'
  rw [← Nat.add_assoc, Nat.add_comm argBase] at henvs'
  refine ((createTables_returns hbelow hargs' henvs'
    (by unfold room maxArgPages at hlt; omega)).and_ensures (createTables_ensures hbelow)).imp ?_
  rintro sp t ⟨⟨rfl, hwords, hkeep⟩, -, hfs', -⟩
  have hmem : (fun a => t.mem (slotBase 0 + a)) = t.see := by
    rw [← hfs, ← hfs']
    rfl
  rw [hmem]
  exact handed_of_words (by omega) hbelow hwords (hargs'.congr fun q hq _ => hkeep q hq)
    (henvs'.congr fun q hq _ => hkeep q (by omega))

/-- In every other slot the tables are made in the memory of another process. -/
theorem not_handed_of_ne (hnr : nr ≠ 0) (hlt : total envs + total args < room)
    (hfilled : Filled m (total envs + total args) s)
    (hclear : ∀ a, 0x3E00000 ≤ a → a < dataLimit → mem (slotBase nr + a) = 0) :
    ¬Returns (createTables (room - (total envs + total args) + argBase) args.length envs.length)
      (changeLdt (slotBase nr) s mem) fun sp t =>
        Handed (fun a => t.mem (slotBase nr + a)) sp args envs := by
  intro hret
  have hbelow := below_of_lt hlt
  obtain ⟨sp, t, -, hhanded, rfl, -, hmem⟩ := hret.and_ensures (createTables_ensures hbelow)
  obtain ⟨hpos, henvp, hend⟩ := hbelow.bounds
  have hargs : args.length ≤ total args := length_le_total
  have henvs : envs.length ≤ total envs := length_le_total
  have hfs : (changeLdt (slotBase nr) s mem).fs = 0 := show descBase userData = 0 by decide
  have hslot : dataLimit ≤ slotBase nr := by
    unfold dataLimit slotBase
    omega
  have hbytes : ∀ x, argvAt (room - (total envs + total args) + argBase) args.length envs.length ≤
      x + 16 → x < room - (total envs + total args) + argBase → t.mem (slotBase nr + x) = 0 := by
    intro x hx hx'
    have hlow : 0x3E00000 ≤ x := by
      unfold argvAt envpAt room argBase dataLimit maxArgPages at *
      omega
    have hhigh : room - (total envs + total args) + argBase < dataLimit := by
      unfold room argBase dataLimit maxArgPages
      omega
    rw [hmem _ (by omega), changeLdt_mem]
    split
    · rename_i hin
      exact hfilled.clear _ (by omega) hin.2.2
    · exact hclear x hlow (by omega)
  have hword : getFsLong (fun a => t.mem (slotBase nr + a))
      (argvAt (room - (total envs + total args) + argBase) args.length envs.length - 24 + 8) =
        0 := by
    refine (readLe_digits (v := 0) fun k hk => ?_).trans (Nat.zero_mod _)
    rw [Nat.zero_div]
    exact hbytes _ (by omega) (by omega)
  exact hhanded.argv_ne hword

theorem RoundTrip.eq_zero (hround : RoundTrip nr u argv envp args envs m mem)
    (h : Passed u argv envp args envs) (hlt : total envs + total args < room)
    (hpages : pagesFor (total envs + total args) ≤ freePages m)
    (hclear : ∀ a, 0x3E00000 ≤ a → a < dataLimit → mem (slotBase nr + a) = 0) : nr = 0 := by
  by_contra hnr
  obtain ⟨r, s, -, ⟨p, argc, envc, hr, hret⟩, hr', hfilled, -⟩ := hround.and_ensures
    (doExecve_fits h ⟨Nat.le_of_lt hlt, hpages⟩ hlt).ensures
  obtain ⟨rfl, rfl, rfl⟩ : p = _ ∧ argc = _ ∧ envc = _ := by simpa using hr.symm.trans hr'
  exact not_handed_of_ne hnr hlt hfilled hclear hret

/-- The arguments arrive exactly in the slot whose base is that of `fs`. -/
theorem tables_roundTrip_iff (h : Passed u argv envp args envs)
    (hlt : total envs + total args < room)
    (hpages : pagesFor (total envs + total args) ≤ freePages m)
    (hclear : ∀ a, 0x3E00000 ≤ a → a < dataLimit → mem (slotBase nr + a) = 0) :
    RoundTrip nr u argv envp args envs m mem ↔ nr = 0 := by
  refine ⟨fun hround => hround.eq_zero h hlt hpages hclear, ?_⟩
  rintro rfl
  refine (doExecve_fits h ⟨Nat.le_of_lt hlt, hpages⟩ hlt).imp ?_
  rintro r s ⟨rfl, hfilled, hargs, henvs⟩
  exact ⟨_, _, _, rfl, handed_of_zero hlt hfilled hargs henvs⟩

end Base

theorem tables_roundTrip_iff_pair : RoundTrip 0 pairUser 0x1010 0x1000 [[0x62]] [[0x61]] bootMemory
    (fun _ => 0) ↔ 0 = 0 :=
  tables_roundTrip_iff pairUser_passed (by decide)
    (by rw [freePages_bootMemory]; decide) fun _ _ _ => rfl

/-- The first process that can call `execve` does not get its arguments. -/
theorem pairUser_not_roundTrip : ¬RoundTrip 1 pairUser 0x1010 0x1000 [[0x62]] [[0x61]] bootMemory
    (fun _ => 0) := by
  intro hround
  have := hround.eq_zero pairUser_passed (by decide) (by rw [freePages_bootMemory]; decide)
    fun _ _ _ => rfl
  cases this

end Linux001.Exec.Strings
