import Linux001.Namei.Directories
import Linux001.ProofKit.Update

/-! The inode numbers that `new_inode` and `free_inode` of `fs/bitmap.c` give out and take back.
Between their calls the callers change inodes and take and leave slots. -/

namespace Linux001.Namei

open Function Fs ProofKit

namespace Kernel

def inodeBit (k : Kernel) (n : Nat) : Option Bool :=
  (k.imap (n / 8192)).map fun p => p.bit (n % 8192)

/-- 1 to 8 bitmap blocks with a bit for every number; bit 0 is set. -/
structure InodeMap (k : Kernel) : Prop where
  pos : 1 ≤ k.zones.sb.sImapBlocks
  le : k.zones.sb.sImapBlocks ≤ 8
  present : ∀ i, (k.imap i).isSome ↔ i < k.zones.sb.sImapBlocks
  covers : k.zones.sb.sNinodes < k.zones.sb.sImapBlocks * 8192
  reserved : k.inodeBit 0 = some true
  dev : k.dev ≠ 0

def IsNumber (k : Kernel) (n : Nat) : Prop := 1 ≤ n ∧ n ≤ k.zones.sb.sNinodes

def BitChanged (k : Kernel) (n : Nat) (b : Bool) (k' : Kernel) : Prop :=
  ∀ m, k'.inodeBit m = if m = n then some b else k.inodeBit m

/-- `get_empty_inode` ends: no slot is free, or a dirty inode cannot be written. -/
def NoSlot (k : Kernel) (e : Stop) : Prop :=
  (e = .noFreeInodes ∧ ∀ i, (k.inode i).iCount ≠ 0) ∨ (e = .inodeBlock ∧ true ∈ k.failures) ∨
    (e = .noSuper ∧ ∃ i, (k.inode i).iCount = 0 ∧ (k.inode i).iDirt = true ∧
      (k.inode i).iDev ≠ k.dev)

/-- `get_empty_inode` gives an unused slot and leaves the rest. -/
structure Emptied (k : Kernel) (i : Slot) (k' : Kernel) : Prop where
  unused : (k.inode i).iCount = 0
  inode : k'.inode = update k.inode i { cleared with iCount := 1 }
  imap : k'.imap = k.imap
  sb : k'.zones.sb = k.zones.sb
  dev : k'.dev = k.dev

end Kernel

open Kernel

/-- The kernel, and the slots that `new_inode` returned and are not freed. -/
structure Numbers where
  kernel : Kernel
  held : Slot → Bool

inductive NumberEvent
  | create
  | free (i : Slot)
  | edit (i : Slot) (m : CoreInode)

def numberStep (s : Numbers) : NumberEvent → Option Numbers
  | .create =>
    match newInode s.kernel.dev s.kernel with
    | .ok (some i) k => some ⟨k, update s.held i true⟩
    | .ok none k => some ⟨k, s.held⟩
    | .error _ _ => none
  | .free i =>
    match freeInode i s.kernel with
    | .ok _ k => some ⟨k, update s.held i false⟩
    | .error _ _ => none
  | .edit i m => some ⟨s.kernel.setInode i m, s.held⟩

/-- `free_inode` is called for a returned inode, without links and with one user. -/
def Proper (s : Numbers) : NumberEvent → Prop
  | .create => True
  | .free i => s.held i = true ∧ (s.kernel.inode i).iNlinks = 0 ∧ (s.kernel.inode i).iCount = 1
  | .edit i m => s.held i = true → m.iDev = (s.kernel.inode i).iDev ∧
      m.iNum = (s.kernel.inode i).iNum ∧ 0 < m.iCount

/-- `new_inode` returns the least number whose bit is clear, or `NULL`. -/
structure Created (s : Numbers) (r : Option Slot) (k' : Kernel) : Prop where
  null_iff : r = none ↔ ∀ n, s.kernel.IsNumber n → s.kernel.inodeBit n = some true
  unchanged : r = none → k'.imap = s.kernel.imap
  number : ∀ i, r = some i → s.held i = false ∧ s.kernel.IsNumber (k'.inode i).iNum ∧
    s.kernel.inodeBit (k'.inode i).iNum = some false ∧
    (∀ m < (k'.inode i).iNum, s.kernel.inodeBit m = some true) ∧
    (∀ j, s.held j = true → (s.kernel.inode j).iNum ≠ (k'.inode i).iNum) ∧
    s.kernel.BitChanged (k'.inode i).iNum true k'

structure Numbered (s : Numbers) : Prop where
  map : s.kernel.InodeMap
  held : ∀ i, s.held i = true → 0 < (s.kernel.inode i).iCount ∧
    (s.kernel.inode i).iDev = s.kernel.dev ∧ s.kernel.IsNumber (s.kernel.inode i).iNum ∧
    s.kernel.inodeBit (s.kernel.inode i).iNum = some true
  distinct : ∀ i j, s.held i = true → s.held j = true →
    (s.kernel.inode i).iNum = (s.kernel.inode j).iNum → i = j

section Empty

variable {k : Kernel} {i : Slot}

theorem bread_cases (k : Kernel) (b : Nat) :
    bread b k = .ok true (Kernel.hold { k with failures := k.failures.tail } b) ∨
      (true ∈ k.failures ∧ bread b k = .ok false { k with failures := k.failures.tail }) := by
  cases h : k.failures with
  | nil =>
    have hk : ({ k with failures := [] } : Kernel) = k := by rw [← h]
    rw [List.tail_nil, hk]
    exact .inl (bread_eq h b)
  | cons fail rest =>
    have hfails : k.readFails = (fail, { k with failures := rest }) := by rw [readFails, h]
    cases fail with
    | false => exact .inl (breadOr_ok hfails)
    | true => exact .inr ⟨List.mem_cons_self, breadOr_failed hfails⟩

theorem flush_meets (k : Kernel) (i : Slot) :
    Meets (flush i) k (fun _ k' => (∀ j, j ≠ i → k'.inode j = k.inode j) ∧ k'.imap = k.imap ∧
      k'.zones.sb = k.zones.sb ∧ k'.dev = k.dev)
      (fun e => (e = .inodeBlock ∧ true ∈ k.failures) ∨
        (e = .noSuper ∧ (k.inode i).iDirt = true ∧ (k.inode i).iDev ≠ k.dev)) := by
  refine meets_get_bind (meets_ite (fun hdirt => ?_) fun _ => ⟨fun _ _ => rfl, rfl, rfl, rfl⟩)
  refine meets_get_bind (meets_ite (fun hdev => .inr ⟨rfl, hdirt, hdev⟩) fun _ => ?_)
  rcases bread_cases k (k.inodeBlock (k.inode i).iNum) with hread | ⟨hmem, hread⟩
  · refine meets_bind_of_eq hread ?_
    refine meets_bind_of_eq rfl ?_
    have hrel := brelse_eq (({ k with failures := k.failures.tail } : Kernel).storeInode i)
      (k.inodeBlock (k.inode i).iNum)
    refine Returns.meets ((returns_of_eq hrel).mpr ⟨fun j hj => ?_, rfl, rfl, rfl⟩)
    exact setInode_of_ne hj _ _
  · refine meets_bind_of_eq hread ?_
    exact .inl ⟨rfl, hmem⟩

theorem getEmptyInode_emptied (k : Kernel) :
    Meets getEmptyInode k (fun i k' => k.Emptied i k') k.NoSlot := by
  refine meets_get_bind ?_
  cases hfree : k.firstFree with
  | none =>
    refine .inl ⟨rfl, fun i hi => ?_⟩
    obtain ⟨j, hj⟩ := firstFree_of_count hi
    rw [hfree] at hj
    cases hj
  | some i =>
    have hzero : (k.inode i).iCount = 0 := by simpa using List.find?_some hfree
    refine meets_bind_of_eq rfl ?_
    refine ((flush_meets _ i).mono (fun _ _ h => h) ?_).bind ?_
    · rintro e (⟨rfl, hmem⟩ | ⟨rfl, hdirt, hdev⟩)
      · exact .inr (.inl ⟨rfl, hmem⟩)
      · exact .inr (.inr ⟨rfl, i, hzero, hdirt, hdev⟩)
    rintro - k1 ⟨hinode, himap, hsb, hdev⟩
    refine meets_bind_of_eq rfl ⟨hzero, ?_, himap, hsb, hdev⟩
    funext j
    by_cases hj : j = i
    · subst hj
      rw [update_self]
      exact setInode_self _ _ _
    · rw [update_of_ne hj]
      exact (setInode_of_ne hj _ _).trans (hinode j hj)

end Empty

section Bits

variable {k k' : Kernel} {n b j : Nat} {p q : Bitmap} {v : Bool}

theorem Kernel.InodeMap.congr (h : k.InodeMap) (himap : k'.imap = k.imap)
    (hsb : k'.zones.sb = k.zones.sb) (hdev : k'.dev = k.dev) : k'.InodeMap := by
  obtain ⟨h1, h2, h3, h4, h5, h6⟩ := h
  refine ⟨?_, ?_, ?_, ?_, ?_, ?_⟩
  · rwa [hsb]
  · rwa [hsb]
  · rwa [hsb, himap]
  · rwa [hsb]
  · unfold inodeBit
    rwa [himap]
  · rwa [hdev]

theorem Kernel.InodeMap.bit (h : k.InodeMap) (hn : n < k.zones.sb.sImapBlocks * 8192) :
    ∃ p, k.imap (n / 8192) = some p ∧ k.inodeBit n = some (p.bit (n % 8192)) := by
  obtain ⟨p, hp⟩ := Option.isSome_iff_exists.mp ((h.present (n / 8192)).mpr (by omega))
  exact ⟨p, hp, by rw [inodeBit, hp, Option.map_some]⟩

theorem bitChanged_of_update (hp : k.imap (n / 8192) = some p)
    (hbit : ∀ m, q.bit m = if m = n % 8192 then v else p.bit m)
    (himap : k'.imap = update k.imap (n / 8192) (some q)) : k.BitChanged n v k' := by
  intro m
  unfold inodeBit
  rw [himap]
  by_cases hb : m / 8192 = n / 8192
  · rw [hb, update_self, Option.map_some, hbit, hp, Option.map_some]
    have hiff : m % 8192 = n % 8192 ↔ m = n := by omega
    by_cases hm : m = n
    · rw [if_pos hm, if_pos (hiff.mpr hm)]
    · rw [if_neg hm, if_neg (hiff.not.mpr hm)]
  · rw [update_of_ne hb, if_neg fun hm => hb (by rw [hm])]

theorem Kernel.InodeMap.bitChanged (h : k.InodeMap) (hpos : 1 ≤ n)
    (hpresent : ∀ i, (k'.imap i).isSome = (k.imap i).isSome) (hsb : k'.zones.sb = k.zones.sb)
    (hdev : k'.dev = k.dev) (hbits : k.BitChanged n v k') : k'.InodeMap := by
  obtain ⟨h1, h2, h3, h4, h5, h6⟩ := h
  refine ⟨?_, ?_, fun i => ?_, ?_, ?_, ?_⟩
  · rwa [hsb]
  · rwa [hsb]
  · rw [hsb, hpresent]
    exact h3 i
  · rwa [hsb]
  · rw [hbits 0, if_neg (by omega)]
    exact h5
  · rwa [hdev]

theorem Kernel.InodeMap.firstZero_least (h : k.InodeMap) (hz : firstZero k.imap = some (b, j, p)) :
    1 ≤ j + b * 8192 ∧ k.inodeBit (j + b * 8192) = some false ∧
      ∀ m < j + b * 8192, k.inodeBit m = some true := by
  obtain ⟨hb, hj, hp, hbit, hlow, hprev⟩ := firstZero_eq_some hz
  have hblocks : b < k.zones.sb.sImapBlocks := (h.present b).mp (by rw [hp]; rfl)
  have hclear : k.inodeBit (j + b * 8192) = some false := by
    have hdiv : (j + b * 8192) / 8192 = b := by omega
    have hmod : (j + b * 8192) % 8192 = j := by omega
    rw [inodeBit, hdiv, hmod, hp, Option.map_some, hbit]
  refine ⟨?_, hclear, fun m hm => ?_⟩
  · by_contra hzero
    have hn : j + b * 8192 = 0 := by omega
    rw [hn, h.reserved] at hclear
    cases hclear
  obtain ⟨q, hq, hmbit⟩ := h.bit (n := m) (by omega)
  rw [hmbit]
  by_cases hmb : m / 8192 = b
  · rw [hmb, hp] at hq
    cases hq
    rw [hlow _ (by omega)]
  · rw [hprev _ (by omega) q hq _ (by omega)]

theorem Kernel.InodeMap.firstZero_full (h : k.InodeMap) (hz : firstZero k.imap = none)
    (hn : k.IsNumber n) : k.inodeBit n = some true := by
  have hle := h.le
  have hcovers := h.covers
  have hlt : n < k.zones.sb.sImapBlocks * 8192 := by
    have := hn.2
    omega
  obtain ⟨p, hp, hbit⟩ := h.bit hlt
  rw [hbit, firstZero_eq_none hz (by omega) hp (by omega)]

end Bits

section Calls

variable {s t : Numbers} {k : Kernel} {i : Slot}

theorem iput_cleared (h : k.inode i = { cleared with iCount := 1 }) :
    iput i k = .ok ⟨⟩ (k.setInode i { k.inode i with iCount := (k.inode i).iCount - 1 }) := by
  unfold iput
  rw [get_bind, if_neg (by rw [h]; decide),
    if_neg (by rw [h]; decide), if_pos (.inl (by rw [h]; rfl))]
  rfl

theorem Numbered.unused (h : Numbered s) (hi : (s.kernel.inode i).iCount = 0) :
    s.held i = false := by
  by_contra hheld
  have := (h.held i (by simpa using hheld)).1
  omega

def Made (s : Numbers) (r : Option Slot) (k' : Kernel) : Prop :=
  Created s r k' ∧ k'.dev = s.kernel.dev ∧ k'.zones.sb = s.kernel.zones.sb ∧
    (∀ i, (k'.imap i).isSome = (s.kernel.imap i).isSome) ∧
    (∀ j, s.held j = true → k'.inode j = s.kernel.inode j) ∧
    ∀ i, r = some i → (k'.inode i).iCount = 1 ∧ (k'.inode i).iDev = s.kernel.dev

theorem newInode_created (h : Numbered s) :
    Meets (newInode s.kernel.dev) s.kernel (Made s) s.kernel.NoSlot := by
  refine (getEmptyInode_emptied s.kernel).bind fun i k1 hemp => ?_
  obtain ⟨hunused, hinode, himap, hsb, hdev⟩ := hemp
  have hfree := h.unused hunused
  have hne : ∀ j, s.held j = true → j ≠ i := by
    rintro j hj rfl
    rw [hfree] at hj
    cases hj
  have hslot : k1.inode i = { cleared with iCount := 1 } := by rw [hinode, update_self]
  refine meets_get_bind ?_
  rw [if_neg (by rw [hdev]; exact fun hn => hn rfl)]
  -- The slot is given back and nothing is allocated.
  have hnull : (∀ n, s.kernel.IsNumber n → s.kernel.inodeBit n = some true) →
      Meets (do iput i; pure none : K (Option Slot)) k1 (Made s) s.kernel.NoSlot := by
    intro hall
    refine meets_bind_of_eq (iput_cleared hslot) ?_
    refine ⟨⟨iff_of_true rfl hall, fun _ => himap, nofun⟩, hdev, hsb, fun j => ?_, fun j hj => ?_,
      nofun⟩
    · change (k1.imap j).isSome = _
      rw [himap]
    · refine (setInode_of_ne (hne j hj) _ _).trans ?_
      rw [hinode, update_of_ne (hne j hj)]
  rw [himap, hsb]
  cases hz : firstZero s.kernel.imap with
  | none => exact hnull fun n hn => h.map.firstZero_full hz hn
  | some found =>
    obtain ⟨b, j, p⟩ := found
    obtain ⟨hpos, hclear, hleast⟩ := h.map.firstZero_least hz
    obtain ⟨-, hj, hp, hbit, -, -⟩ := firstZero_eq_some hz
    refine meets_ite (fun hlt => hnull fun n hn => hleast n ?_) fun hle => ?_
    · have := hn.2
      omega
    rw [if_neg (by rw [setBit_fst, hbit]; decide)]
    refine meets_bind_of_eq rfl (meets_bind_of_eq rfl ?_)
    have hnumber : s.kernel.IsNumber (j + b * 8192) := ⟨hpos, by omega⟩
    have hself := fun (k : Kernel) m => setInode_self k i m
    refine ⟨⟨⟨nofun, fun hall => ?_⟩, nofun, ?_⟩, hdev, hsb, fun c => ?_, fun c hc => ?_, ?_⟩
    · rw [hall _ hnumber] at hclear
      cases hclear
    · rintro _ ⟨rfl⟩
      rw [hself]
      refine ⟨hfree, hnumber, hclear, hleast, fun c hc heq => ?_, ?_⟩
      · have hused := (h.held c hc).2.2.2
        rw [heq] at hused
        rw [hclear] at hused
        cases hused
      · have hdiv : (j + b * 8192) / 8192 = b := by omega
        have hmod : (j + b * 8192) % 8192 = j := by omega
        have hset : ∀ m, (setBit j p).2.bit m =
            if m = (j + b * 8192) % 8192 then true else p.bit m := by
          intro m
          rw [bit_setBit, hmod]
          by_cases hm : m = j
          · simp [hm]
          · simp [hm]
        refine bitChanged_of_update (by rw [hdiv]; exact hp) hset ?_
        change update k1.imap b _ = _
        rw [himap, hdiv]
    · change ((update k1.imap b _) c).isSome = _
      rw [himap]
      by_cases hcb : c = b
      · subst hcb
        rw [update_self, hp]
        rfl
      · rw [update_of_ne hcb]
    · refine (setInode_of_ne (hne c hc) _ _).trans ?_
      rw [hinode, update_of_ne (hne c hc)]
    · rintro _ ⟨rfl⟩
      rw [hself]
      exact ⟨rfl, rfl⟩

theorem freeInode_clears (h : Numbered s) (hi : s.held i = true)
    (hlinks : (s.kernel.inode i).iNlinks = 0) (hcount : (s.kernel.inode i).iCount = 1) :
    Returns (freeInode i) s.kernel fun _ k' =>
      s.kernel.BitChanged (s.kernel.inode i).iNum false k' ∧ k'.dev = s.kernel.dev ∧
        k'.zones.sb = s.kernel.zones.sb ∧
        (∀ i, (k'.imap i).isSome = (s.kernel.imap i).isSome) ∧
        ∀ j, j ≠ i → k'.inode j = s.kernel.inode j := by
  obtain ⟨-, hdev, hnumber, hbit⟩ := h.held i hi
  have hcovers := h.map.covers
  obtain ⟨p, hp, hbit'⟩ := h.map.bit (n := (s.kernel.inode i).iNum) (by
    have := hnumber.2
    omega)
  rw [hbit, Option.some.injEq] at hbit'
  unfold freeInode
  rw [returns_bind, returns_get, if_neg (by rw [hdev]; exact h.map.dev), if_neg (by omega),
    if_neg (not_not.mpr hlinks), if_neg (not_not.mpr hdev),
    if_neg (by obtain ⟨h1, h2⟩ := hnumber; omega)]
  simp only [hp]
  rw [if_neg (by rw [clearBit_fst, ← hbit']; decide), returns_set]
  refine ⟨?_, rfl, rfl, fun c => ?_, fun j hj => setInode_of_ne hj _ _⟩
  · have hcleared : ∀ m, (clearBit ((s.kernel.inode i).iNum % 8192) p).2.bit m =
        if m = (s.kernel.inode i).iNum % 8192 then false else p.bit m := by
      intro m
      rw [bit_clearBit]
      by_cases hm : m = (s.kernel.inode i).iNum % 8192
      · simp [hm]
      · simp [hm]
    exact bitChanged_of_update hp hcleared rfl
  · change ((update s.kernel.imap _ _) c).isSome = _
    by_cases hcb : c = (s.kernel.inode i).iNum / 8192
    · subst hcb
      rw [update_self, hp]
      rfl
    · rw [update_of_ne hcb]

theorem numberStep_numbered {e : NumberEvent} (h : Numbered s) (hok : Proper s e)
    (hstep : numberStep s e = some t) : Numbered t := by
  cases e with
  | create =>
    have hmeets := newInode_created h
    unfold Meets at hmeets
    unfold numberStep at hstep
    cases hnew : newInode s.kernel.dev s.kernel with
    | error e k =>
      simp only [hnew] at hstep
      cases hstep
    | ok r k =>
      rw [hnew] at hmeets
      obtain ⟨hcreated, hdev, hsb, hpresent, hheld, hslot⟩ := hmeets
      cases r with
      | none =>
        simp only [hnew] at hstep
        cases hstep
        have himap := hcreated.unchanged rfl
        refine ⟨h.map.congr himap hsb hdev, fun i hi => ?_, fun i j hi hj => ?_⟩
        · have hused := h.held i hi
          unfold IsNumber inodeBit at hused ⊢
          rwa [hheld i hi, hdev, hsb, himap]
        · rw [hheld i hi, hheld j hj]
          exact h.distinct i j hi hj
      | some i =>
        simp only [hnew] at hstep
        cases hstep
        obtain ⟨hfree, hnumber, -, -, hfresh, hbits⟩ := hcreated.number i rfl
        obtain ⟨hcount, hidev⟩ := hslot i rfl
        have hkeep : ∀ c, update s.held i true c = true → c ≠ i → s.held c = true :=
          fun c hc hci => by rwa [update_of_ne hci] at hc
        refine ⟨h.map.bitChanged hnumber.1 hpresent hsb hdev hbits, fun c hc => ?_,
          fun c d hc hd heq => ?_⟩
        · by_cases hci : c = i
          · subst hci
            refine ⟨by rw [hcount]; decide, hidev.trans hdev.symm, ?_, ?_⟩
            · unfold IsNumber
              rw [hsb]
              exact hnumber
            · exact (hbits _).trans (if_pos rfl)
          · have hold := hkeep c hc hci
            have hused := h.held c hold
            unfold IsNumber at hused ⊢
            rw [hheld c hold, hdev, hsb, hbits, if_neg (hfresh c hold)]
            exact hused
        · by_cases hci : c = i <;> by_cases hdi : d = i
          · exact hci.trans hdi.symm
          · rw [hci, hheld d (hkeep d hd hdi)] at heq
            exact absurd heq.symm (hfresh d (hkeep d hd hdi))
          · rw [hdi, hheld c (hkeep c hc hci)] at heq
            exact absurd heq (hfresh c (hkeep c hc hci))
          · rw [hheld c (hkeep c hc hci), hheld d (hkeep d hd hdi)] at heq
            exact h.distinct c d (hkeep c hc hci) (hkeep d hd hdi) heq
  | free i =>
    obtain ⟨hi, hlinks, hcount⟩ := hok
    obtain ⟨_, k', hfree, hbits, hdev, hsb, hpresent, hother⟩ := freeInode_clears h hi hlinks hcount
    simp only [numberStep, hfree] at hstep
    cases hstep
    have hkeep : ∀ c, update s.held i false c = true → c ≠ i ∧ s.held c = true := fun c hc =>
      of_update hc nofun
    refine ⟨h.map.bitChanged (h.held i hi).2.2.1.1 hpresent hsb hdev hbits, fun c hc => ?_,
      fun c d hc hd heq => ?_⟩
    · obtain ⟨hci, hold⟩ := hkeep c hc
      have hused := h.held c hold
      unfold IsNumber at hused ⊢
      rw [hother c hci, hdev, hsb, hbits, if_neg fun heq => hci (h.distinct c i hold hi heq)]
      exact hused
    · obtain ⟨hci, hc⟩ := hkeep c hc
      obtain ⟨hdi, hd⟩ := hkeep d hd
      rw [hother c hci, hother d hdi] at heq
      exact h.distinct c d hc hd heq
  | edit i m =>
    cases hstep
    have hsame : ∀ c, s.held c = true → ((s.kernel.setInode i m).inode c).iNum =
        (s.kernel.inode c).iNum ∧ ((s.kernel.setInode i m).inode c).iDev =
        (s.kernel.inode c).iDev ∧ 0 < ((s.kernel.setInode i m).inode c).iCount := by
      intro c hc
      by_cases hci : c = i
      · subst hci
        rw [setInode_self]
        obtain ⟨hdev, hnum, hcount⟩ := hok hc
        exact ⟨hnum, hdev, hcount⟩
      · rw [setInode_of_ne hci]
        exact ⟨rfl, rfl, (h.held c hc).1⟩
    refine ⟨h.map.congr rfl rfl rfl, fun c hc => ?_, fun c d hc hd heq => ?_⟩
    · obtain ⟨hnum, hdev, hcount⟩ := hsame c hc
      rw [hnum, hdev]
      exact ⟨hcount, (h.held c hc).2⟩
    · rw [(hsame c hc).1, (hsame d hd).1] at heq
      exact h.distinct c d hc hd heq

/-- In every run `new_inode` returns the least number not in use, or `NULL` if there is none, and
`free_inode` makes its number available again. -/
theorem inode_numbers {s₀ : Numbers} (hmap : s₀.kernel.InodeMap) (hnone : ∀ i, s₀.held i = false)
    (hr : Reaches numberStep Proper s₀ s) :
    Meets (newInode s.kernel.dev) s.kernel (Created s) s.kernel.NoSlot ∧
      ∀ i, Proper s (.free i) → Returns (freeInode i) s.kernel fun _ k' =>
        s.kernel.BitChanged (s.kernel.inode i).iNum false k' := by
  have hstart : Numbered s₀ := by
    refine ⟨hmap, fun i hi => ?_, fun i j hi => ?_⟩
    · rw [hnone i] at hi
      cases hi
    · rw [hnone i] at hi
      cases hi
  have h : Numbered s := hr.invariant (P := Numbered)
    (fun _ _ _ h hok hstep => numberStep_numbered h hok hstep) hstart
  refine ⟨(newInode_created h).imp fun _ _ hc => hc.1, fun i hi => ?_⟩
  exact (freeInode_clears h hi.1 hi.2.1 hi.2.2).imp fun _ _ hc => hc.1

end Calls

theorem mounted_inodeMap : mounted.InodeMap where
  pos := by decide
  le := by decide
  present i := by
    cases i with
    | zero => exact iff_of_true rfl (by decide)
    | succ i =>
      have hblocks : mounted.zones.sb.sImapBlocks = 1 := rfl
      exact iff_of_false nofun (by omega)
  covers := by decide
  reserved := rfl
  dev := by decide

/-- An inode is created on the disk of `mounted`, and its link is taken away. -/
theorem inode_numbers_mounted : ∃ s, Reaches numberStep Proper ⟨mounted, fun _ => false⟩ s ∧
    (s.kernel.inode 1).iNum = 2 ∧ Proper s (.free 1) ∧
    Meets (newInode s.kernel.dev) s.kernel (Created s) s.kernel.NoSlot ∧
    Returns (freeInode 1) s.kernel fun _ k' => s.kernel.BitChanged 2 false k' := by
  obtain ⟨t, ht, hheld, hnum, hcount⟩ : ∃ t, numberStep ⟨mounted, fun _ => false⟩ .create = some t ∧
      t.held 1 = true ∧ (t.kernel.inode 1).iNum = 2 ∧ (t.kernel.inode 1).iCount = 1 :=
    ⟨_, rfl, rfl, rfl, rfl⟩
  have hedit : Proper t (.edit 1 { t.kernel.inode 1 with iNlinks := 0 }) :=
    fun _ => ⟨rfl, rfl, by rw [hcount]; decide⟩
  obtain ⟨u, hu, hheld', hnum', hlinks', hcount'⟩ : ∃ u,
      numberStep t (.edit 1 { t.kernel.inode 1 with iNlinks := 0 }) = some u ∧ u.held 1 = true ∧
      (u.kernel.inode 1).iNum = 2 ∧ (u.kernel.inode 1).iNlinks = 0 ∧
      (u.kernel.inode 1).iCount = 1 := by
    have hinode := setInode_self t.kernel 1 { t.kernel.inode 1 with iNlinks := 0 }
    refine ⟨_, rfl, hheld, ?_, ?_, ?_⟩
    · exact hnum
    · rw [hinode]
    · exact hcount
  have hreach : Reaches numberStep Proper ⟨mounted, fun _ => false⟩ u :=
    .tail (.single ⟨.create, trivial, ht⟩) ⟨_, hedit, hu⟩
  have hfree : Proper u (.free 1) := ⟨hheld', hlinks', hcount'⟩
  obtain ⟨hnew, hfrees⟩ := inode_numbers mounted_inodeMap (fun _ => rfl) hreach
  have hclears := hfrees 1 hfree
  rw [hnum'] at hclears
  exact ⟨u, hreach, hnum', hfree, hnew, hclears⟩

end Linux001.Namei
