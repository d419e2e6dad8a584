import Linux001.Mm.Operations

/-! The states of memory that the functions of `mm/memory.c` reach from the boot page tables, and
the invariant of `mem_map` in all of them. -/

namespace Linux001.Mm

open Function ProofKit

section Boot

variable {s : Memory} {q : List (Fin 512)} {t p : Nat}

theorem child_entry_low {n : Nat} (hn : 0 < n) (hlt : n < 4096) :
    child (entry (0x1000 * n)) = some (0x1000 * n) :=
  child_entry (by omega) (by omega) (by omega)

@[simp] theorem child_zero : child 0#64 = none := by decide

section
variable (h : Booted s)
include h

theorem Booted.tableAt (hq : q.length ≤ 3) (ht : s.tableAt q = some t) :
    (q = [] ∧ t = 0x1000) ∨ (q = [0] ∧ t = 0x2000) ∨ (q = [0, 0] ∧ t = 0x3000) ∨
      ∃ k : Fin 512, k.val < 8 ∧ q = [k, 0, 0] ∧ t = 0x4000 + 0x1000 * k.val := by
  have hpml4 : ∀ i t, child (s.mem 0x1000 i) = some t → i = 0 ∧ t = 0x2000 := by
    intro i t hi
    rw [h.pml4] at hi
    split at hi
    · exact ⟨‹_›, (Option.some.inj ((child_entry_low (n := 2) (by decide) (by decide)).symm.trans
        hi)).symm⟩
    · simp at hi
  have hpdpt : ∀ i t, child (s.mem 0x2000 i) = some t → i = 0 ∧ t = 0x3000 := by
    intro i t hi
    rw [h.pdpt] at hi
    split at hi
    · exact ⟨‹_›, (Option.some.inj ((child_entry_low (n := 3) (by decide) (by decide)).symm.trans
        hi)).symm⟩
    · simp at hi
  have hpd : ∀ i t, child (s.mem 0x3000 i) = some t → i.val < 8 ∧ t = 0x4000 + 0x1000 * i.val := by
    intro i t hi
    rw [h.pd] at hi
    split at hi
    · rename_i hlt
      rw [show 0x4000 + 0x1000 * i.val = 0x1000 * (4 + i.val) by omega,
        child_entry_low (by omega) (by omega)] at hi
      have := Option.some.inj hi
      exact ⟨hlt, by omega⟩
    · simp at hi
  match q with
  | [] => exact .inl ⟨rfl, (Option.some.inj ht).symm⟩
  | [i] =>
    obtain ⟨rfl, rfl⟩ := hpml4 i t ht
    exact .inr (.inl ⟨rfl, rfl⟩)
  | [j, i] =>
    obtain ⟨u, hu, hj⟩ := Option.bind_eq_some_iff.mp ht
    obtain ⟨rfl, rfl⟩ := hpml4 i u hu
    obtain ⟨rfl, rfl⟩ := hpdpt j t hj
    exact .inr (.inr (.inl ⟨rfl, rfl⟩))
  | [k, j, i] =>
    obtain ⟨v, hv, hk⟩ := Option.bind_eq_some_iff.mp ht
    obtain ⟨u, hu, hj⟩ := Option.bind_eq_some_iff.mp hv
    obtain ⟨rfl, rfl⟩ := hpml4 i u hu
    obtain ⟨rfl, rfl⟩ := hpdpt j v hj
    obtain ⟨hlt, rfl⟩ := hpd k t hk
    exact .inr (.inr (.inr ⟨k, hlt, rfl, rfl⟩))
  | _ :: _ :: _ :: _ :: _ =>
    simp only [List.length_cons] at hq
    omega

theorem Booted.low (ht : s.IsTable t) : t < lowMem := by
  obtain ⟨q, hq, ht⟩ := ht
  unfold lowMem
  rcases h.tableAt hq ht with ⟨-, rfl⟩ | ⟨-, rfl⟩ | ⟨-, rfl⟩ | ⟨k, hk, -, rfl⟩ <;> omega

theorem Booted.wf : Wf s where
  tree p q t hp hq hpt hqt := by
    rcases h.tableAt hp hpt with ⟨rfl, rfl⟩ | ⟨rfl, rfl⟩ | ⟨rfl, rfl⟩ | ⟨k, hk, rfl, rfl⟩ <;>
      rcases h.tableAt hq hqt with ⟨rfl, heq⟩ | ⟨rfl, heq⟩ | ⟨rfl, heq⟩ | ⟨j, hj, rfl, heq⟩ <;>
      first
        | rfl
        | omega
        | (obtain rfl : k = j := Fin.ext (by omega)
           rfl)
  used t ht := .inl (h.low ht)

theorem Booted.leaf_of_le (hle : 0x1000 ≤ p) (hlt : p < 2 ^ 36) :
    s.leaf (4096 * p) = 0 := by
  refine leaf_of_none (Option.eq_none_iff_forall_ne_some.mpr fun t ht => ?_)
  rcases h.tableAt (by simp [path]) ht with ⟨hq, -⟩ | ⟨hq, -⟩ | ⟨hq, -⟩ | ⟨k, hk, hq, -⟩
  · simp [path] at hq
  · simp [path] at hq
  · simp [path] at hq
  · simp only [path, List.cons.injEq, and_true] at hq
    have h1 : (4096 * p / 2 ^ 21) % 512 = k.val := congrArg Fin.val hq.1
    have h2 : (4096 * p / 2 ^ 30) % 512 = 0 := congrArg Fin.val hq.2.1
    have h3 : (4096 * p / 2 ^ 39) % 512 = 0 := congrArg Fin.val hq.2.2
    omega

theorem Booted.leaf (hp : p ∈ userPages) : s.leaf (4096 * p) = 0 := by
  rw [mem_userPages] at hp
  exact h.leaf_of_le (by omega) (by omega)

theorem Booted.inv : Inv s [] := by
  have hlookup : ∀ p ∈ userPages, s.lookup (4096 * p) = none := fun p hp => by
    rw [lookup_eq_none_iff, h.leaf hp]
    rfl
  have hframe : ∀ p ∈ userPages, (ledger s []).frame p = none := fun p hp => by
    rw [Ledger.frame, ledger_maps hp, hlookup p hp]
    rfl
  refine ⟨⟨h.wf, fun p hp e he => ?_, fun p hp _ => h.leaf hp⟩, by simp, ?_⟩
  · rw [hlookup p hp] at he
    cases he
  refine ⟨fun p hp f hf => ?_, fun k hk => ?_, fun k hk => ?_, fun p hp q hq f hf => ?_,
    fun p hp q hq f hf => ?_⟩
  · rw [hframe p hp] at hf
    cases hf
  · rcases hk with hk | hk
    · exact absurd (h.low hk) (Nat.not_lt.mpr (Nat.le_add_right _ _))
    · cases hk
  · exact absurd (h.low hk) (Nat.not_lt.mpr (Nat.le_add_right _ _))
  · have := hframe p hp
    rw [Ledger.frame_of_maps hf] at this
    cases this
  · rw [hframe p hp] at hf
    cases hf

end

end Boot

/-- Memory, with the pages obtained and not mapped yet. -/
structure State where
  mm : Memory
  got : List Nat

inductive Op
  | getFreePage
  | putPage (page address : Nat)
  | doNoPage (address : Nat)
  | doWpPage (address : Nat)
  | writeVerify (address : Nat)
  | copyPageTables (src dst size : Nat)
  | freePageTables (nr size : Nat)

def UserAddr (a : Nat) : Prop := a / 4096 ∈ userPages

def UserSlot (nr : Nat) : Prop := 0 < nr ∧ nr < nrTasks

def EmptySlot (s : Memory) (nr : Nat) : Prop :=
  ∀ k < slotPages, s.lookup (slotBase nr + 4096 * k) = none

def Legal (s : State) : Op → Prop
  | .getFreePage => True
  | .putPage page a => page ∈ s.got ∧ UserAddr a ∧ s.mm.lookup a = none
  | .doNoPage a => UserAddr a ∧ s.mm.lookup a = none
  | .doWpPage a => UserAddr a
  | .writeVerify a => UserAddr a
  | .copyPageTables src dst size => UserSlot src ∧ UserSlot dst ∧ src ≠ dst ∧ size ≤ 0x4000000 ∧
      EmptySlot s.mm dst
  | .freePageTables nr size => UserSlot nr ∧ size ≤ 0x4000000

def State.afterGet (s : State) : Option (Nat × Memory) → State
  | none => s
  | some (page, m) => ⟨m, page :: s.got⟩

def State.afterPut (s : State) (page : Nat) : Option Nat × Memory → State
  | (none, m) => ⟨m, s.got⟩
  | (some _, m) => ⟨m, s.got.filter (· ≠ page)⟩

/-- One call, `none` for a panic; a failed call leaves what it has done. -/
def step (s : State) : Op → Option State
  | .getFreePage => some (s.afterGet (getFreePage s.mm))
  | .putPage page a => some (s.afterPut page (putPage s.mm page a))
  | .doNoPage a => some ⟨(doNoPage s.mm a).state, s.got⟩
  | .doWpPage a => some ⟨(doWpPage s.mm a).state, s.got⟩
  | .writeVerify a => some ⟨(writeVerify s.mm a).state, s.got⟩
  | .copyPageTables src dst size =>
    (copyPageTables s.mm (slotBase src) (slotBase dst) size).toOption.map fun r => ⟨r.2, s.got⟩
  | .freePageTables nr size =>
    (freePageTables s.mm (slotBase nr) size).toOption.map fun m => ⟨m, s.got⟩

section Run

variable {s t : State} {op : Op} {m : Memory} {I : Memory → List Nat → Prop}

theorem view_none_of_lookup {a : Nat} (h : m.lookup a = none) :
    m.view (a / 4096) = none := by
  rw [view_eq_none_iff, ← h]
  exact lookup_congr (leaf_page m a).symm

theorem view_none_of_empty {nr : Nat} (h : EmptySlot m nr) :
    ∀ k < slotPages, m.view (nr * slotPages + k) = none := by
  intro k hk
  have haddr : 4096 * (nr * slotPages + k) = slotBase nr + 4096 * k := by
    unfold slotBase slotPages
    omega
  rw [view_eq_none_iff, haddr]
  exact h k hk

theorem mem_filter_ne {got : List Nat} {page g : Nat} :
    g ∈ got.filter (· ≠ page) ↔ g ∈ got ∧ g ≠ page := by
  simp

theorem step_kept [Kept I] (h : I s.mm s.got) (hlegal : Legal s op)
    (hfault : ∀ a, op = .doNoPage a → I (doNoPage s.mm a).state s.got) (hs : step s op = some t) :
    I t.mm t.got := by
  cases op with
  | getFreePage =>
    cases hs
    cases hg : getFreePage s.mm with
    | none => exact h
    | some x => exact Kept.alloc h hg
  | putPage page a =>
    obtain ⟨hgot, ha, hnone⟩ := hlegal
    cases hs
    rcases putPage_spec h ha (view_none_of_lookup hnone) hgot (fun _ => mem_filter_ne) with
      ⟨m, hm, -, hinv, -⟩ | ⟨m, hm, hinv, -⟩
    · rw [hm]
      exact hinv
    · rw [hm]
      exact hinv
  | doNoPage a =>
    cases hs
    exact hfault a rfl
  | doWpPage a =>
    cases hs
    rcases doWpPage_spec h hlegal with ⟨hm, -⟩ | hm | ⟨m, hm, hinv, -⟩
    · rw [hm]
      exact h
    · rw [hm]
      exact h
    · rw [hm]
      exact hinv
  | writeVerify a =>
    cases hs
    rcases writeVerify_spec h hlegal with hm | hm | ⟨m, hm, hinv, -⟩
    · rw [hm]
      exact h
    · rw [hm]
      exact h
    · rw [hm]
      exact hinv
  | copyPageTables src dst size =>
    obtain ⟨hsrc, hdst, hne, hsize, hempty⟩ := hlegal
    obtain ⟨r, m, n, hm, hinv, -⟩ :=
      copyPageTables_spec h hsrc hdst hne hsize (view_none_of_empty hempty)
    rw [step, hm] at hs
    cases hs
    exact hinv
  | freePageTables nr size =>
    obtain ⟨m, hm, hinv, -⟩ := freePageTables_spec h hlegal.1 hlegal.2
    rw [step, hm] at hs
    cases hs
    exact hinv

theorem step_inv (h : Inv s.mm s.got) (hlegal : Legal s op) (hs : step s op = some t) :
    Inv t.mm t.got := by
  refine step_kept h hlegal ?_ hs
  rintro a rfl
  obtain ⟨ha, hnone⟩ := hlegal
  rcases doNoPage_spec h ha (view_none_of_lookup hnone) with ⟨m, hm, hinv, -⟩ | ⟨m, -, hm, hinv, -⟩
  · rw [hm]
    exact hinv
  · rw [hm]
    exact hinv

theorem reaches_inv (hm : Booted m) (h : Reaches step Legal ⟨m, []⟩ s) :
    Inv s.mm s.got :=
  h.invariant (P := fun s => Inv s.mm s.got) (fun _ _ _ hi hl hs => step_inv hi hl hs) hm.inv

end Run

def Maps (s : Memory) (p f : Nat) : Prop := (s.lookup (4096 * p)).map pteAddr = some f

instance (s : Memory) (p f : Nat) : Decidable (Maps s p f) := inferInstanceAs (Decidable (_ = _))

/-- What `mem_map` says of the frames, and which user pages share them. -/
structure Counted (s : Memory) : Prop where
  exact : ∀ f, lowMem ≤ f → f < highMemory → (∃ p ∈ userPages, Maps s p f) →
    (s.memMap (mapNr f)).toNat = (userPages.filter fun p => Maps s p f).card
  unmapped : ∀ f, s.IsTable f ∨ (lowMem ≤ f ∧ f < highMemory ∧ s.memMap (mapNr f) = 0) →
    ∀ p ∈ userPages, ¬Maps s p f
  alone : ∀ p ∈ userPages, ∀ e, s.lookup (4096 * p) = some e → writable e = true →
    ∀ q ∈ userPages, Maps s q (pteAddr e) → q = p

section Counts

variable {s : Memory} {got : List Nat} {p f : Nat}

theorem maps_iff (h : Inv s got) (hp : p ∈ userPages) (hlow : lowMem ≤ f) (hmod : f % 4096 = 0) :
    Maps s p f ↔ (ledger s got).frame p = some (mapNr f) := by
  rw [Maps, Option.map_eq_some_iff]
  constructor
  · rintro ⟨e, he, rfl⟩
    exact frame_of_lookup hp he
  intro hf
  cases hl : s.lookup (4096 * p) with
  | none =>
    rw [Ledger.frame, ledger_maps hp, hl] at hf
    cases hf
  | some e =>
    have heq : mapNr (pteAddr e) = mapNr f :=
      Option.some.inj ((frame_of_lookup hp hl).symm.trans hf)
    refine ⟨e, rfl, ?_⟩
    rw [← page_mapNr (h.range p hp e hl).1 (pteAddr_mod e), heq, page_mapNr hlow hmod]

theorem Inv.counted (h : Inv s got) : Counted s where
  exact f hlow _ hmap := by
    obtain ⟨p, hp, hpf⟩ := hmap
    obtain ⟨e, he, rfl⟩ := Option.map_eq_some_iff.mp hpf
    refine (h.valid.counted p hp _ (frame_of_lookup hp he)).trans (congrArg Finset.card ?_)
    exact Finset.filter_congr fun q hq => (maps_iff h hq hlow (pteAddr_mod e)).symm
  unmapped f hf p hp hpf := by
    obtain ⟨e, he, rfl⟩ := Option.map_eq_some_iff.mp hpf
    rcases hf with htable | ⟨-, -, hzero⟩
    · exact h.not_isTable hp he htable
    · exact h.count_ne_zero hp he hzero
  alone p hp e he hw q hq hmap := by
    have hframe := (maps_iff h hq (h.range p hp e he).1 (pteAddr_mod e)).mp hmap
    refine h.valid.alone p hp q hq _ ?_ hframe
    rw [maps_of_lookup hp he, mapping, hw]

end Counts

/-- In every reachable state `mem_map` counts the user pages, and no free panics. -/
theorem counted_of_reaches {m : Memory} {s : State} (hm : Booted m)
    (h : Reaches step Legal ⟨m, []⟩ s) :
    Counted s.mm ∧ ∀ nr size, UserSlot nr → size ≤ 0x4000000 →
      ∃ m', freePageTables s.mm (slotBase nr) size = .ok m' := by
  have hinv := reaches_inv hm h
  refine ⟨hinv.counted, fun nr size hnr hsize => ?_⟩
  obtain ⟨m', hm', -⟩ := freePageTables_spec hinv hnr hsize
  exact ⟨m', hm'⟩

/-- The boot page tables, with all other memory 0. -/
def bootMemory : Memory where
  memMap _ := 0
  mem page i :=
    if page = 0x1000 then (if i = 0 then entry 0x2000 else 0)
    else if page = 0x2000 then (if i = 0 then entry 0x3000 else 0)
    else if page = 0x3000 then (if i.val < 8 then entry (0x4000 + 0x1000 * i.val) else 0)
    else if 0x4000 ≤ page ∧ page < 0xC000 then
      entry (0x1000 * (512 * ((page - 0x4000) / 0x1000) + i.val))
    else 0

theorem bootMemory_booted : Booted bootMemory where
  free _ _ := rfl
  pml4 _ := rfl
  pdpt _ := rfl
  pd _ := rfl
  pt k hk i := by
    have hdiv : (0x4000 + 0x1000 * k - 0x4000) / 0x1000 = k := by omega
    simp only [bootMemory]
    rw [if_neg (by omega), if_neg (by omega), if_neg (by omega), if_pos (by omega), hdiv]

/-- The memory after the boot and a first page fault at `a`. -/
def faultMemory (a : Nat) : Memory := (doNoPage bootMemory a).state

theorem faultMemory_spec {k : Nat} (hk : UserSlot k) : Inv (faultMemory (slotBase k)) [] ∧
    ∀ p ∈ userPages, p ≠ slotBase k / 4096 → (faultMemory (slotBase k)).view p = none := by
  have hpage : slotBase k / 4096 ∈ userPages := by
    have h1 := hk.1
    have h2 := hk.2
    rw [mem_userPages]
    unfold slotBase
    unfold nrTasks at h2
    omega
  have hnone : ∀ p ∈ userPages, bootMemory.view p = none := fun p hp => by
    rw [view_eq_none_iff, lookup_eq_none_iff, bootMemory_booted.leaf hp]
    rfl
  unfold faultMemory
  rcases doNoPage_spec bootMemory_booted.inv hpage (hnone _ hpage) with
    ⟨s', h, hinv, hview⟩ | ⟨s', page, h, hinv, hview⟩
  · rw [h]
    exact ⟨hinv, fun p hp _ => (hview hp).trans (hnone p hp)⟩
  · rw [h]
    exact ⟨hinv, fun p hp hne => (hview hp).trans ((update_of_ne hne _ _).trans (hnone p hp))⟩

theorem faultMemory_empty {k nr : Nat} (hk : UserSlot k) (hnr : UserSlot nr) (hne : k ≠ nr) :
    EmptySlot (faultMemory (slotBase k)) nr := by
  intro i hi
  have h1 := hnr.1
  have h2 := hnr.2
  unfold nrTasks slotPages at *
  have hpage : slotBase nr + 4096 * i = 4096 * (nr * 0x4000 + i) := by
    unfold slotBase
    omega
  rw [hpage, ← view_eq_none_iff]
  refine (faultMemory_spec hk).2 _ (mem_userPages.mpr (by omega)) ?_
  unfold slotBase
  omega

/-- A page fault in slot 1, and a fork to slot 2 that shares the page. -/
theorem counted_of_reaches_shared : ∃ s, Reaches step Legal ⟨bootMemory, []⟩ s ∧ Counted s.mm ∧
    (s.mm.lookup (slotBase 1)).isSome = true ∧
      s.mm.lookup (slotBase 2) = s.mm.lookup (slotBase 1) := by
  have hone : UserSlot 1 := ⟨by decide, by decide⟩
  have htwo : UserSlot 2 := ⟨by decide, by decide⟩
  have hfault : Legal ⟨bootMemory, []⟩ (.doNoPage (slotBase 1)) :=
    ⟨mem_userPages.mpr (by decide), rfl⟩
  have hfork : Legal ⟨faultMemory (slotBase 1), []⟩ (.copyPageTables 1 2 0x1000) :=
    ⟨hone, htwo, by decide, by decide, faultMemory_empty hone htwo (by decide)⟩
  have hrun : (step ⟨faultMemory (slotBase 1), []⟩ (.copyPageTables 1 2 0x1000)).map (fun s =>
      decide ((s.mm.lookup (slotBase 1)).isSome = true ∧
        s.mm.lookup (slotBase 2) = s.mm.lookup (slotBase 1))) = some true := by decide +kernel
  obtain ⟨s, hs, hshared⟩ := Option.map_eq_some_iff.mp hrun
  have hreach : Reaches step Legal ⟨bootMemory, []⟩ s :=
    .tail (.single ⟨_, hfault, rfl⟩) ⟨_, hfork, hs⟩
  exact ⟨s, hreach, (counted_of_reaches bootMemory_booted hreach).1, of_decide_eq_true hshared⟩

end Linux001.Mm
