import Linux001.Mm.CopyMem

/-! Copy-on-write against eager copying.  Processes fork, write and exit; the pages that they share
through `mm/memory.c` hold the bytes of a model in which every fork copies every page. -/

namespace Linux001.Mm

open Function ProofKit

abbrev Byte := BitVec 8

def getByte (w : Word) (k : Nat) : Byte := w.extractLsb' (8 * k) 8

def setByte (w : Word) (k : Nat) (b : Byte) : Word :=
  (w &&& ~~~((0xFF : Word) <<< (8 * k))) ||| (b.setWidth 64 <<< (8 * k))

def pageOffset (addr : Nat) : Fin 4096 := Fin.ofNat 4096 addr

def wordIndex (o : Fin 4096) : Fin 512 := ⟨o.val / 8, by omega⟩

def pageBytes (c : Fin 512 → Word) (o : Fin 4096) : Byte := getByte (c (wordIndex o)) (o.val % 8)

theorem getLsbD_255 (n : Nat) : (0xFF : Word).getLsbD n = decide (n < 8) := by
  rw [show (0xFF : Word) = BitVec.ofNat 64 (2 ^ 8 - 1) by decide, BitVec.getLsbD_ofNat,
    Nat.testBit_two_pow_sub_one]
  by_cases hn : n < 8
  · simp [hn, show n < 64 by omega]
  · simp [hn]

theorem getByte_setByte (w : Word) (b : Byte) {j k : Nat} (hj : j < 8) (hk : k < 8) :
    getByte (setByte w k b) j = if j = k then b else getByte w j := by
  apply BitVec.eq_of_getLsbD_eq
  intro i hi
  have hlt : 8 * j + i < 64 := by omega
  simp only [getByte, setByte, BitVec.getLsbD_extractLsb', BitVec.getLsbD_or, BitVec.getLsbD_and,
    BitVec.getLsbD_not, BitVec.getLsbD_shiftLeft, BitVec.getLsbD_setWidth, getLsbD_255]
  by_cases hjk : j = k
  · subst hjk
    simp [hi, hlt, show i < 64 by omega, show ¬8 * j + i < 8 * j by omega]
  · rw [if_neg hjk]
    simp only [BitVec.getLsbD_extractLsb', hi, hlt, decide_true, Bool.true_and]
    by_cases hle : 8 * j + i < 8 * k
    · simp [hle]
    · have hge : 8 ≤ 8 * j + i - 8 * k := by omega
      simp [Nat.not_lt.mpr hge, BitVec.getLsbD_of_ge b _ hge]

theorem pageBytes_setByte (c : Fin 512 → Word) (o : Fin 4096) (b : Byte) :
    pageBytes (update c (wordIndex o) (setByte (c (wordIndex o)) (o.val % 8) b)) =
      update (pageBytes c) o b := by
  funext r
  have hr8 : r.val % 8 < 8 := Nat.mod_lt _ (by decide)
  have ho8 : o.val % 8 < 8 := Nat.mod_lt _ (by decide)
  by_cases hro : r = o
  · subst hro
    rw [update_self, pageBytes, update_self, getByte_setByte _ _ hr8 hr8, if_pos rfl]
  rw [update_of_ne hro, pageBytes, pageBytes]
  by_cases hw : wordIndex r = wordIndex o
  · have hne : r.val % 8 ≠ o.val % 8 := by
      intro hmod
      have hdiv : r.val / 8 = o.val / 8 := congrArg Fin.val hw
      exact hro (Fin.ext (by omega))
    rw [hw, update_self, getByte_setByte _ _ hr8 ho8, if_neg hne]
  · rw [update_of_ne hw]

def readByte (s : Memory) (addr : Nat) : Option Byte :=
  (s.lookup addr).map fun e => pageBytes (s.mem (pteAddr e)) (pageOffset addr)

def storeByte (s : Memory) (e : Word) (addr : Nat) (b : Byte) : Memory :=
  let i := wordIndex (pageOffset addr)
  s.store (pteAddr e) i (setByte (s.mem (pteAddr e) i) ((pageOffset addr).val % 8) b)

inductive Fault
  | noPage
  | writeProtect

/-- What a write finds: the entry to write through, or a page fault. -/
def translate (s : Memory) (addr : Nat) : Word ⊕ Fault :=
  match s.lookup addr with
  | none => .inr .noPage
  | some e => if writable e then .inl e else .inr .writeProtect

def handle (s : Memory) (addr : Nat) : Fault → Outcome
  | .noPage => doNoPage s addr
  | .writeProtect => doWpPage s addr

def retry (addr : Nat) (b : Byte) : Outcome → Option Memory
  | .exit _ => none
  | .ret s =>
    match translate s addr with
    | .inl e => some (storeByte s e addr b)
    | .inr _ => none

def userWrite (s : Memory) (addr : Nat) (b : Byte) : Option Memory :=
  match translate s addr with
  | .inl e => some (storeByte s e addr b)
  | .inr f => retry addr b (handle s addr f)

structure Cow where
  mm : Memory
  live : Finset Nat

inductive Event
  | fork (parent child : Nat)
  | write (nr addr : Nat) (b : Byte)
  | verify (nr addr : Nat)
  | exit (nr : Nat)

/-- A fork has copied the whole slot unless it ran out of pages. -/
def Cow.afterFork (s : Cow) (child : Nat) : Except Panic (Bool × Memory) → Option Cow
  | .ok (true, m) => some ⟨m, insert child s.live⟩
  | _ => none

def Cow.afterVerify (s : Cow) : Outcome → Option Cow
  | .ret m => some ⟨m, s.live⟩
  | .exit _ => none

def Cow.step (s : Cow) : Event → Option Cow
  | .fork parent child =>
    if parent ∈ s.live ∧ child ∉ s.live ∧ 0 < child ∧ child < nrTasks then
      s.afterFork child (copyPageTables s.mm (slotBase parent) (slotBase child) 0x4000000)
    else none
  | .write nr addr b =>
    if nr ∈ s.live ∧ addr < 0x4000000 then
      (userWrite s.mm (slotBase nr + addr) b).map fun m => ⟨m, s.live⟩
    else none
  | .verify nr addr =>
    if nr ∈ s.live ∧ addr < 0x4000000 then s.afterVerify (writeVerify s.mm (slotBase nr + addr))
    else none
  | .exit nr =>
    if nr ∈ s.live then
      (freePageTables s.mm (slotBase nr) 0x4000000).toOption.map fun m => ⟨m, s.live.erase nr⟩
    else none

/-- The model without sharing: the pages of each process, each with its own bytes. -/
abbrev Eager := Nat → Nat → Option (Fin 4096 → Byte)

/-- A fork copies every page, and a write goes to the page of its process. -/
def Eager.step (a : Eager) : Event → Eager
  | .fork parent child => update a child (a parent)
  | .write nr addr b =>
    let page := (a nr (addr / 4096)).getD fun _ => 0
    update a nr (update (a nr) (addr / 4096) (some (update page (pageOffset addr) b)))
  | .verify _ _ => a
  | .exit nr => update a nr fun _ => none

def Eager.read (a : Eager) (nr addr : Nat) : Option Byte :=
  (a nr (addr / 4096)).map fun bytes => bytes (pageOffset addr)

section Write

variable {s s' : Memory} {got : List Nat} {p addr : Nat} {e : Word} {b : Byte} {c : Fin 512 → Word}

theorem lookup_page (s : Memory) (addr : Nat) : s.lookup addr = s.lookup (4096 * (addr / 4096)) :=
  lookup_congr (leaf_page s addr)

def bytesOf (v : Option (Word × (Fin 512 → Word))) : Option (Fin 4096 → Byte) :=
  v.map fun x => pageBytes x.2

theorem storeByte_spec (h : Inv s got) (hp : addr / 4096 ∈ userPages) (hl : s.lookup addr = some e)
    (hw : writable e = true) :
    Inv (storeByte s e addr b) got ∧ ∃ c, Set.EqOn (storeByte s e addr b).view
      (update s.view (addr / 4096) (some (e, c))) userPages ∧
      pageBytes c = update (pageBytes (s.mem (pteAddr e))) (pageOffset addr) b := by
  rw [lookup_page] at hl
  have hnt := h.not_isTable hp hl
  refine ⟨h.setPage hnt, _, fun q hq => ?_, pageBytes_setByte _ _ _⟩
  by_cases hqp : q = addr / 4096
  · subst hqp
    rw [update_self, view_eq_some_iff]
    refine ⟨?_, update_self _ _ _⟩
    exact (lookup_congr (leaf_setPage hnt _)).trans hl
  · rw [update_of_ne hqp]
    refine view_setPage hnt fun e' he' heq => hqp ?_
    refine h.valid.alone _ hp q hq _ ?_ (frame_of_lookup hq he')
    rw [maps_of_lookup hp hl, mapping, hw, heq]

structure Written (s s' : Memory) (got : List Nat) (addr : Nat) (b : Byte) : Prop where
  inv : Inv s' got
  view : ∃ e c, Set.EqOn s'.view (update s.view (addr / 4096) (some (e, c))) userPages ∧
    pageBytes c =
      update ((bytesOf (s.view (addr / 4096))).getD fun _ => 0) (pageOffset addr) b

theorem translate_inl (h : translate s addr = .inl e) :
    s.lookup addr = some e ∧ writable e = true := by
  unfold translate at h
  split at h
  · cases h
  · split at h
    · rename_i hl hw
      cases h
      exact ⟨hl, hw⟩
    · cases h

theorem translate_of_view (h : s.view (addr / 4096) = some (e, c))
    (hw : writable e = true) : translate s addr = .inl e ∧ s.mem (pteAddr e) = c := by
  obtain ⟨hl, hc⟩ := view_eq_some_iff.mp h
  rw [← lookup_page] at hl
  refine ⟨?_, hc⟩
  rw [translate, hl]
  exact if_pos hw

theorem retry_spec {s1 : Memory} (h : Inv s1 got)
    (hp : addr / 4096 ∈ userPages) (hw : writable e = true)
    (hview : Set.EqOn s1.view (update s.view (addr / 4096) (some (e, c))) userPages)
    (hc : pageBytes c = (bytesOf (s.view (addr / 4096))).getD fun _ => 0) :
    ∃ s', retry addr b (.ret s1) = some s' ∧ Written s s' got addr b := by
  obtain ⟨htrans, hmem⟩ := translate_of_view ((hview hp).trans (update_self _ _ _)) hw
  obtain ⟨hinv, c', hview', hc'⟩ := storeByte_spec (b := b) h hp (translate_inl htrans).1 hw
  refine ⟨storeByte s1 e addr b, ?_, hinv, e, c', fun q hq => ?_, ?_⟩
  · rw [retry, htrans]
  · rw [hview' hq]
    by_cases hqp : q = addr / 4096
    · rw [hqp, update_self, update_self]
    · rw [update_of_ne hqp, hview hq, update_of_ne hqp, update_of_ne hqp]
  · rw [hc', hmem, hc]

theorem userWrite_spec (h : Inv s got) (hp : addr / 4096 ∈ userPages) :
    (∃ f s', translate s addr = .inr f ∧ handle s addr f = .exit s' ∧
      userWrite s addr b = none) ∨
      ∃ s', userWrite s addr b = some s' ∧ Written s s' got addr b := by
  unfold userWrite
  cases htrans : translate s addr with
  | inl e =>
    obtain ⟨hl, hw⟩ := translate_inl htrans
    obtain ⟨hinv, c, hview, hc⟩ := storeByte_spec (b := b) h hp hl hw
    refine .inr ⟨_, rfl, hinv, e, c, hview, ?_⟩
    rw [lookup_page] at hl
    rw [hc, view_of_lookup hl]
    rfl
  | inr f =>
    cases f with
    | noPage =>
      have hnone : s.view (addr / 4096) = none := by
        rw [view_eq_none_iff, ← lookup_page]
        unfold translate at htrans
        split at htrans
        · assumption
        · split at htrans <;> cases htrans
      rcases doNoPage_spec h hp hnone with ⟨s1, hs1, -⟩ | ⟨s1, page, hs1, h1, hview1⟩
      · exact .inl ⟨.noPage, s1, rfl, hs1, by simp only [handle, hs1, retry]⟩
      · refine .inr ?_
        simp only [handle, hs1]
        refine retry_spec h1 hp (writable_entry page) hview1 ?_
        rw [hnone]
        funext o
        simp [pageBytes, bytesOf, getByte]
    | writeProtect =>
      have hview : s.view (addr / 4096) ≠ none := by
        rw [ne_eq, view_eq_none_iff, ← lookup_page]
        intro hnone
        rw [translate, hnone] at htrans
        cases htrans
      rcases doWpPage_spec h hp with ⟨-, hnone⟩ | hs1 | ⟨s1, hs1, h1, -, e, hw, hview1⟩
      · exact absurd hnone hview
      · exact .inl ⟨.writeProtect, s, rfl, hs1, by simp only [handle, hs1, retry]⟩
      refine .inr ?_
      simp only [handle, hs1]
      refine retry_spec h1 hp hw hview1 ?_
      cases hv : s.view (addr / 4096) with
      | none => exact absurd hv hview
      | some x =>
        rw [wordsOf, hv]
        rfl

end Write

/-- The pages of live processes hold the bytes of the model. -/
structure Agree (s : Cow) (a : Eager) : Prop where
  inv : Inv s.mm []
  slots : ∀ nr ∈ s.live, UserSlot nr
  empty : ∀ nr, UserSlot nr → nr ∉ s.live → ∀ k < slotPages, s.mm.view (nr * slotPages + k) = none
  bytes : ∀ nr ∈ s.live, ∀ k < slotPages, a nr k = bytesOf (s.mm.view (nr * slotPages + k))

section Refinement

variable {s t : Cow} {a : Eager} {nr addr k : Nat}

theorem slot_mem (hnr : UserSlot nr) (hk : k < slotPages) : nr * slotPages + k ∈ userPages := by
  obtain ⟨h0, h1⟩ := hnr
  rw [mem_userPages]
  unfold nrTasks slotPages at *
  omega

theorem slot_addr (nr : Nat) (haddr : addr < 0x4000000) :
    (slotBase nr + addr) / 4096 = nr * slotPages + addr / 4096 ∧ addr / 4096 < slotPages ∧
      pageOffset (slotBase nr + addr) = pageOffset addr := by
  refine ⟨?_, ?_, Fin.ext ?_⟩
  · unfold slotBase slotPages
    omega
  · unfold slotPages
    omega
  · simp only [pageOffset, Fin.val_ofNat, slotBase]
    omega

theorem slot_inj {nr' k' : Nat} (hk : k < slotPages) (hk' : k' < slotPages)
    (h : nr * slotPages + k = nr' * slotPages + k') : nr = nr' ∧ k = k' := by
  unfold slotPages at *
  omega

theorem Agree.of_bytes {a' : Eager} (hinv : Inv t.mm []) (hslots : ∀ nr ∈ t.live, UserSlot nr)
    (hempty : ∀ nr, UserSlot nr → nr ∉ t.live → ∀ k < slotPages,
      t.mm.view (nr * slotPages + k) = none)
    (hbytes : ∀ nr ∈ t.live, ∀ k < slotPages, bytesOf (t.mm.view (nr * slotPages + k)) = a' nr k) :
    Agree t a' :=
  ⟨hinv, hslots, hempty, fun nr hnr k hk => (hbytes nr hnr k hk).symm⟩

theorem bytesOf_readOnly (v : Option (Word × (Fin 512 → Word))) :
    bytesOf (readOnly v) = bytesOf v := by
  cases v <;> rfl

theorem roundUp_slot : roundUp 0x4000000 / 0x1000 = slotPages := by decide

section
variable (h : Agree s a)
include h

theorem fork_agree {parent child : Nat}
    (hs : s.step (.fork parent child) = some t) : Agree t (a.step (.fork parent child)) := by
  rw [Cow.step] at hs
  split at hs
  · rename_i hguard
    obtain ⟨hp, hc, hchild⟩ := hguard
    have hpslot := h.slots parent hp
    have hne : parent ≠ child := ne_of_mem_of_not_mem hp hc
    obtain ⟨r, m, n, hm, hinv, -, hok, hview⟩ := copyPageTables_spec h.inv hpslot hchild hne
      (Nat.le_refl _) (h.empty child hchild hc)
    rw [hm] at hs
    cases r with
    | false => cases hs
    | true =>
      cases hs
      rw [hok rfl, roundUp_slot] at hview
      have hcopied : ∀ nr, UserSlot nr → ∀ k < slotPages, m.view (nr * slotPages + k) =
          if nr = parent then readOnly (s.mm.view (nr * slotPages + k))
          else if nr = child then readOnly (s.mm.view (parent * slotPages + k))
          else s.mm.view (nr * slotPages + k) := by
        intro nr hnr k hk
        rw [hview (slot_mem hnr hk), copied]
        by_cases hnp : nr = parent
        · rw [if_pos hnp, if_pos (by subst hnp; omega)]
        by_cases hnc : nr = child
        · rw [if_neg hnp, if_pos hnc, if_neg (by unfold slotPages at *; omega),
            if_pos (by subst hnc; omega), hnc,
            show parent * slotPages + (child * slotPages + k - child * slotPages) =
              parent * slotPages + k by omega]
        · rw [if_neg hnp, if_neg hnc, if_neg (by unfold slotPages at *; omega),
            if_neg (by unfold slotPages at *; omega)]
      refine .of_bytes hinv (fun nr hnr => ?_) (fun nr hnr hdead k hk => ?_) fun nr hnr k hk => ?_
      · rcases Finset.mem_insert.mp hnr with rfl | hnr
        · exact hchild
        · exact h.slots nr hnr
      · rw [Finset.mem_insert, not_or] at hdead
        rw [hcopied nr hnr k hk, if_neg (ne_of_mem_of_not_mem hp hdead.2).symm,
          if_neg hdead.1]
        exact h.empty nr hnr hdead.2 k hk
      rcases Finset.mem_insert.mp hnr with rfl | hnr
      · rw [hcopied nr hchild k hk, if_neg hne.symm, if_pos rfl, bytesOf_readOnly, Eager.step,
          update_self, h.bytes parent hp k hk]
      · have hnc : nr ≠ child := ne_of_mem_of_not_mem hnr hc
        rw [hcopied nr (h.slots nr hnr) k hk, Eager.step, update_of_ne hnc, h.bytes nr hnr k hk]
        by_cases hnp : nr = parent
        · rw [if_pos hnp, bytesOf_readOnly]
        · rw [if_neg hnp, if_neg hnc]
  · cases hs

theorem write_agree {b : Byte} (hs : s.step (.write nr addr b) = some t) :
    Agree t (a.step (.write nr addr b)) := by
  rw [Cow.step] at hs
  split at hs
  · rename_i hguard
    obtain ⟨hnr, haddr⟩ := hguard
    obtain ⟨hpage, hk, hoff⟩ := slot_addr nr haddr
    have hmem := slot_mem (h.slots nr hnr) hk
    rw [← hpage] at hmem
    obtain ⟨m, hm, rfl⟩ := Option.map_eq_some_iff.mp hs
    rcases userWrite_spec (b := b) h.inv hmem with
      ⟨f, s', -, -, hnone⟩ | ⟨s', hs', hinv, e, c, hview, hc⟩
    · rw [hnone] at hm
      cases hm
    obtain rfl : s' = m := Option.some.inj (hs'.symm.trans hm)
    rw [hpage] at hview hc
    refine .of_bytes hinv h.slots (fun nr' hnr' hdead k hk' => ?_) fun nr' hnr' k hk' => ?_
    · rw [hview (slot_mem hnr' hk'), update_of_ne]
      · exact h.empty nr' hnr' hdead k hk'
      · intro heq
        exact hdead ((slot_inj hk' hk heq).1 ▸ hnr)
    rw [hview (slot_mem (h.slots nr' hnr') hk'), Eager.step]
    by_cases hpk : nr' = nr ∧ k = addr / 4096
    · obtain ⟨rfl, rfl⟩ := hpk
      rw [update_self, update_self, update_self, h.bytes nr' hnr _ hk]
      simp only [bytesOf, Option.map_some]
      rw [hc, hoff]
      rfl
    · rw [update_of_ne fun heq => hpk (slot_inj hk' hk heq), ← h.bytes nr' hnr' k hk']
      by_cases hn : nr' = nr
      · subst hn
        rw [update_self, update_of_ne fun heq => hpk ⟨rfl, heq⟩]
      · rw [update_of_ne hn]
  · cases hs

theorem verify_agree (hs : s.step (.verify nr addr) = some t) :
    Agree t (a.step (.verify nr addr)) := by
  rw [Cow.step] at hs
  split at hs
  · rename_i hguard
    obtain ⟨hnr, haddr⟩ := hguard
    obtain ⟨hpage, hk, -⟩ := slot_addr nr haddr
    have hmem := slot_mem (h.slots nr hnr) hk
    rw [← hpage] at hmem
    rcases writeVerify_spec h.inv hmem with hm | hm | ⟨m, hm, hinv, ⟨-, e, -, hview⟩, hsome⟩
    · rw [hm] at hs
      cases hs
      exact h
    · rw [hm] at hs
      cases hs
    rw [hm] at hs
    cases hs
    have hsame : ∀ q ∈ userPages, bytesOf (m.view q) = bytesOf (s.mm.view q) := by
      intro q hq
      rw [hview hq]
      by_cases hqp : q = (slotBase nr + addr) / 4096
      · rw [hqp, update_self, wordsOf]
        cases hv : s.mm.view ((slotBase nr + addr) / 4096) with
        | none => exact absurd hv hsome
        | some x => rfl
      · rw [update_of_ne hqp]
    refine .of_bytes hinv h.slots (fun nr' hnr' hdead k hk' => ?_) fun nr' hnr' k hk' => ?_
    · have hnone := h.empty nr' hnr' hdead k hk'
      have := hsame _ (slot_mem hnr' hk')
      rw [hnone] at this
      exact Option.map_eq_none_iff.mp this
    · rw [hsame _ (slot_mem (h.slots nr' hnr') hk')]
      exact (h.bytes nr' hnr' k hk').symm
  · cases hs

theorem exit_agree (hs : s.step (.exit nr) = some t) :
    Agree t (a.step (.exit nr)) := by
  rw [Cow.step] at hs
  split at hs
  · rename_i hnr
    obtain ⟨m, hm, hinv, hview⟩ := freePageTables_spec h.inv (h.slots nr hnr) (Nat.le_refl _)
    rw [hm] at hs
    cases hs
    rw [roundUp_slot] at hview
    have hother : ∀ nr', UserSlot nr' → nr' ≠ nr → ∀ k < slotPages,
        m.view (nr' * slotPages + k) = s.mm.view (nr' * slotPages + k) := by
      intro nr' hnr' hne k hk
      rw [hview _ (slot_mem hnr' hk), if_neg]
      unfold slotPages at *
      omega
    refine .of_bytes hinv (fun nr' hnr' => h.slots nr' (Finset.mem_of_mem_erase hnr'))
      (fun nr' hnr' hdead k hk => ?_) fun nr' hnr' k hk => ?_
    · by_cases hn : nr' = nr
      · subst hn
        rw [hview _ (slot_mem hnr' hk), if_pos (by omega)]
      · rw [hother nr' hnr' hn k hk]
        exact h.empty nr' hnr' (fun hmem => hdead (Finset.mem_erase.mpr ⟨hn, hmem⟩)) k hk
    · obtain ⟨hn, hmem⟩ := Finset.mem_erase.mp hnr'
      rw [hother nr' (h.slots nr' hmem) hn k hk, Eager.step, update_of_ne hn,
        h.bytes nr' hmem k hk]
  · cases hs

theorem step_agree {e : Event} (hs : s.step e = some t) : Agree t (a.step e) := by
  cases e with
  | fork parent child => exact fork_agree h hs
  | write nr addr b => exact write_agree h hs
  | verify nr addr => exact verify_agree h hs
  | exit nr => exact exit_agree h hs

theorem run_agree {es : List Event} (hs : run Cow.step es s = some t) :
    Agree t (es.foldl Eager.step a) := by
  induction es generalizing s a with
  | nil =>
    cases hs
    exact h
  | cons e es ih =>
    obtain ⟨u, hu, hrest⟩ := Option.bind_eq_some_iff.mp hs
    exact ih (step_agree h hu) hrest

end

theorem Booted.agree {m : Memory} {live : Finset Nat} (hm : Booted m)
    (hlive : ∀ nr ∈ live, UserSlot nr) : Agree ⟨m, live⟩ fun _ _ => none := by
  have hview : ∀ p ∈ userPages, m.view p = none := fun p hp => by
    rw [view_eq_none_iff, lookup_eq_none_iff, hm.leaf hp]
    rfl
  refine ⟨hm.inv, hlive, fun nr hnr _ k hk => hview _ (slot_mem hnr hk), fun nr hnr k hk => ?_⟩
  rw [hview _ (slot_mem (hlive nr hnr) hk)]
  rfl

theorem Agree.readByte (h : Agree s a) (hnr : nr ∈ s.live) (haddr : addr < 0x4000000) :
    readByte s.mm (slotBase nr + addr) = a.read nr addr := by
  obtain ⟨hpage, hk, hoff⟩ := slot_addr nr haddr
  rw [Mm.readByte, Eager.read, h.bytes nr hnr _ hk, ← hpage, hoff, lookup_page, Memory.view,
    bytesOf, Option.map_map, Option.map_map]
  rfl

end Refinement

/-- Copy-on-write refines eager copying: each process reads what it reads where forks copy, as long
as there are free pages. -/
theorem copyOnWrite_refines_eager {m : Memory} {live : Finset Nat} {es : List Event} {s : Cow}
    (hm : Booted m) (hlive : ∀ nr ∈ live, UserSlot nr) (hs : run Cow.step es ⟨m, live⟩ = some s) :
    ∀ nr ∈ s.live, ∀ addr < 0x4000000,
      readByte s.mm (slotBase nr + addr) = (es.foldl Eager.step fun _ _ => none).read nr addr ∧
      ∀ b, userWrite s.mm (slotBase nr + addr) b = none →
        ∃ f s', translate s.mm (slotBase nr + addr) = .inr f ∧
          handle s.mm (slotBase nr + addr) f = .exit s' := by
  intro nr hnr addr haddr
  have hagree := run_agree (hm.agree hlive) hs
  refine ⟨hagree.readByte hnr haddr, fun b hnone => ?_⟩
  obtain ⟨hpage, hk, -⟩ := slot_addr nr haddr
  have hmem := slot_mem (hagree.slots nr hnr) hk
  rw [← hpage] at hmem
  rcases userWrite_spec (b := b) hagree.inv hmem with ⟨f, s', hf, hexit, -⟩ | ⟨s', hs', -⟩
  · exact ⟨f, s', hf, hexit⟩
  · rw [hnone] at hs'
    cases hs'

theorem Agree.fork_single {s : Cow} {a : Eager} {parent child : Nat} {u : Memory} (h : Agree s a)
    (hp : parent ∈ s.live) (hc : child ∉ s.live) (hchild : UserSlot child)
    (hone : ∀ k < slotPages, k ≠ 0 → a parent k = none)
    (hu : copyPte s.mm (slotBase parent) (slotBase child) = (true, u)) :
    s.step (.fork parent child) = some ⟨u, insert child s.live⟩ := by
  obtain ⟨h0, h1⟩ := h.slots parent hp
  obtain ⟨h2, h3⟩ := hchild
  have hne : parent ≠ child := ne_of_mem_of_not_mem hp hc
  unfold nrTasks at h1 h3
  have hloop : copyLoop (16383 + 1) s.mm (slotBase parent) (slotBase child) = (true, u) := by
    refine copyLoop_single h.inv.wf (h.inv.roomy (by decide)) hu ?_ fun i hi => ⟨?_, ?_, ?_⟩
    · unfold pageNr slotBase
      omega
    · unfold pageNr slotBase
      omega
    · unfold pageNr slotBase
      omega
    · have hi' : i + 1 < slotPages := Nat.succ_lt_succ hi
      have hnone := hone (i + 1) hi' (Nat.succ_ne_zero i)
      rw [h.bytes parent hp _ hi', bytesOf, Option.map_eq_none_iff, view_eq_none_iff,
        lookup_eq_none_iff] at hnone
      rwa [show slotBase parent + 0x1000 * (i + 1) = 4096 * (parent * slotPages + (i + 1)) by
        unfold slotBase slotPages; omega]
  rw [Cow.step, if_pos ⟨hp, hc, h2, h3⟩, copyPageTables, if_neg (by unfold slotBase; omega)]
  exact congrArg (s.afterFork child ∘ Except.ok) hloop

/-- Process 1 writes and forks, and both write to the shared page. -/
theorem copyOnWrite_refines_eager_fork :
    ∃ s, run Cow.step [.write 1 0 0x41, .fork 1 2, .write 2 0 0x42, .write 1 1 0x43]
        ⟨bootMemory, {1}⟩ = some s ∧
      readByte s.mm (slotBase 1) = some 0x41 ∧ readByte s.mm (slotBase 2) = some 0x42 := by
  have hslot : ∀ nr ∈ ({1} : Finset Nat), UserSlot nr := by
    intro nr hnr
    rw [Finset.mem_singleton.mp hnr]
    exact ⟨by decide, by decide⟩
  have hwrite : ((Cow.step ⟨bootMemory, {1}⟩ (.write 1 0 0x41)).map fun s =>
      decide (1 ∈ s.live ∧ 2 ∉ s.live ∧ (copyPte s.mm (slotBase 1) (slotBase 2)).1 = true ∧
        (run Cow.step [.write 2 0 0x42, .write 1 1 0x43]
          ⟨(copyPte s.mm (slotBase 1) (slotBase 2)).2, insert 2 s.live⟩).map
            (fun t => decide (1 ∈ t.live ∧ 2 ∈ t.live)) = some true)) = some true := by
    decide +kernel
  obtain ⟨s, hs, hfacts⟩ := Option.map_eq_some_iff.mp hwrite
  obtain ⟨h1, h2, hdone, hrest⟩ := of_decide_eq_true hfacts
  obtain ⟨t, ht, hlive⟩ := Option.map_eq_some_iff.mp hrest
  obtain ⟨hlive1, hlive2⟩ := of_decide_eq_true hlive
  have hfirst : run Cow.step [.write 1 0 0x41] ⟨bootMemory, {1}⟩ = some s := by
    rw [run_cons, hs]
    rfl
  have hfork := (run_agree (bootMemory_booted.agree hslot) hfirst).fork_single h1 h2
    ⟨by decide, by decide⟩ (fun k _ hne => by simp [Eager.step, hne]) (Prod.ext hdone rfl)
  have hrun : run Cow.step [.write 1 0 0x41, .fork 1 2, .write 2 0 0x42, .write 1 1 0x43]
      ⟨bootMemory, {1}⟩ = some t := by
    rw [run_cons, hs, Option.bind_some, run_cons, hfork, Option.bind_some]
    exact ht
  have hread := copyOnWrite_refines_eager bootMemory_booted hslot hrun
  exact ⟨t, hrun, (hread 1 hlive1 0 (by decide)).1, (hread 2 hlive2 0 (by decide)).1⟩

end Linux001.Mm
