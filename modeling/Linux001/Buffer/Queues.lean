import Linux001.Buffer.Cache
import Linux001.ProofKit.Update

/-! The representation invariant of the hash queues and the free list, and what
`remove_from_queues`, `insert_into_queues` and `find_buffer` do to it. -/

namespace Linux001.Buffer

open Function ProofKit

namespace Queues

/-- The free list is the ring `free`; a hash queue has the buffers of its value. -/
structure Wf (q : Queues) (dev hash : Nat → Nat) (chain : Nat → List Nat) (free : List Nat) :
    Prop where
  linked : ∀ h, DList q.bNext q.bPrev none (q.hashTable h) (chain h)
  distinct : ∀ h, (chain h).Nodup
  hashed : ∀ h b, b ∈ chain h ↔ b ∈ free ∧ dev b ≠ 0 ∧ hash b = h
  loose : ∀ b ∈ free, dev b = 0 → q.bNext b = none ∧ q.bPrev b = none
  ring : Ring q.bNextFree q.bPrevFree free
  nodup : free.Nodup
  entry : q.freeList ∈ free

namespace Wf

variable {q : Queues} {dev dev' hash hash' : Nat → Nat} {chain : Nat → List Nat} {free : List Nat}
  {b h : Nat} {a : Nat}

theorem congr (w : Wf q dev hash chain free) (hd : ∀ b ∈ free, dev' b = dev b)
    (hh : ∀ b ∈ free, hash' b = hash b) : Wf q dev' hash' chain free where
  linked := w.linked
  distinct := w.distinct
  hashed h b := by
    rw [w.hashed h b]
    refine and_congr_right fun hb => ?_
    rw [hd b hb, hh b hb]
  loose b hb h := w.loose b hb (hd b hb ▸ h)
  ring := w.ring
  nodup := w.nodup
  entry := w.entry

theorem not_self (w : Wf q dev hash chain free) (hb : b ∈ free) :
    q.bNext b ≠ some b ∧ q.bPrev b ≠ some b := by
  by_cases hd : dev b = 0
  · simp [w.loose b hb hd]
  · have hmem : b ∈ chain (hash b) := (w.hashed _ _).mpr ⟨hb, hd, rfl⟩
    exact (w.linked _).not_self (w.distinct _) hmem

theorem mem_of_link (w : Wf q dev hash chain free) (hb : b ∈ free)
    (hl : q.bNext b = some a ∨ q.bPrev b = some a) :
    b ∈ chain (hash b) ∧ a ∈ chain (hash b) := by
  by_cases hd : dev b = 0
  · simp [w.loose b hb hd] at hl
  · have hmem : b ∈ chain (hash b) := (w.hashed _ _).mpr ⟨hb, hd, rfl⟩
    refine ⟨hmem, ?_⟩
    rcases hl with hl | hl
    · exact ((w.linked _).prev_eq_of_next hmem hl).1
    · exact ((w.linked _).next_eq_of_prev hmem hl).1

theorem no_link (w : Wf q dev hash chain free) (hb : b ∈ free) (hbh : b ∉ chain h)
    (ha : a ∈ chain h) : ¬(q.bNext b = some a ∨ q.bPrev b = some a) := by
  intro hl
  obtain ⟨hb', ha'⟩ := w.mem_of_link hb hl
  obtain ⟨-, -, rfl⟩ := (w.hashed _ _).mp ha
  obtain ⟨-, -, hab⟩ := (w.hashed _ _).mp ha'
  rw [hab] at hbh
  exact hbh hb'

theorem entry_ne (w : Wf q dev hash chain free) (hb : b ∉ chain h) : q.hashTable h ≠ some b := by
  rw [← (w.linked h).head?_eq]
  exact fun hhead => hb (List.mem_of_mem_head? hhead)

theorem not_mem_chain (w : Wf q dev hash chain free) (hb : b ∉ free) : b ∉ chain h :=
  fun hmem => hb ((w.hashed _ _).mp hmem).1

end Wf

theorem removeHash_eq {q : Queues} {b h : Nat} (hn : q.bNext b ≠ some b) (hp : q.bPrev b ≠ some b) :
    q.removeHash h b =
      { q with
        bPrev := store q.bPrev (q.bNext b) (q.bPrev b)
        bNext := store q.bNext (q.bPrev b) (q.bNext b)
        hashTable := update q.hashTable h
          (if q.hashTable h = some b then q.bNext b else q.hashTable h) } := by
  simp only [removeHash, store_of_ne hn, store_of_ne hp]

namespace Wf

variable {q : Queues} {dev dev' hash hash' : Nat → Nat} {chain : Nat → List Nat} {free : List Nat}
  {b h : Nat}

theorem linked_removeHash (w : Wf q dev hash chain free) (hb : b ∈ free) (h : Nat) :
    DList (q.removeHash (hash b) b).bNext (q.removeHash (hash b) b).bPrev none
      ((q.removeHash (hash b) b).hashTable h) ((chain h).erase b) := by
  obtain ⟨hn, hp⟩ := w.not_self hb
  rw [removeHash_eq hn hp]
  by_cases hmem : b ∈ chain h
  · obtain ⟨-, -, rfl⟩ := (w.hashed _ _).mp hmem
    obtain ⟨l, r, hlr⟩ := List.append_of_mem hmem
    have hnd := w.distinct (hash b)
    have hl := w.linked (hash b)
    rw [hlr] at hnd hl
    have hbl : b ∉ l := fun hbl => (List.nodup_append.mp hnd).2.2 b hbl b (by simp) rfl
    have hrem := hl.remove hnd (by simp)
    rw [hlr, List.erase_append_right _ hbl, List.erase_cons_head]
    simpa using hrem
  · have hentry : update q.hashTable (hash b)
        (if q.hashTable (hash b) = some b then q.bNext b else q.hashTable (hash b)) h =
          q.hashTable h := by
      by_cases hh : h = hash b
      · subst hh
        rw [update_self, if_neg (w.entry_ne hmem)]
      · rw [update_of_ne hh]
    rw [List.erase_of_not_mem hmem]
    show DList _ _ none (update q.hashTable (hash b) _ h) (chain h)
    rw [hentry]
    refine (w.linked h).congr (fun a ha => store_of_ne ?_) (fun a ha => store_of_ne ?_)
    · exact fun hl => w.no_link hb hmem ha (.inr hl)
    · exact fun hl => w.no_link hb hmem ha (.inl hl)

theorem remove (w : Wf q dev hash chain free) (hb : b ∈ free) (hlen : 2 ≤ free.length) :
    ∃ free', (b :: free').Perm free ∧
      Wf ((q.removeHash (hash b) b).removeFree b) dev hash (fun h => (chain h).erase b) free' := by
  obtain ⟨free', hperm, hnext, hring⟩ := w.ring.remove w.nodup hb hlen
  obtain ⟨hbf, hnd⟩ := List.nodup_cons.mp (hperm.nodup_iff.mpr w.nodup)
  have hmem : ∀ a, a ∈ free' ↔ a ≠ b ∧ a ∈ free := fun a => by
    rw [← hperm.mem_iff, List.mem_cons]
    constructor
    · exact fun ha => ⟨fun hab => hbf (hab ▸ ha), .inr ha⟩
    · exact fun ⟨hab, ha⟩ => ha.resolve_left hab
  have hself : update q.bNextFree (q.bPrevFree b) (q.bNextFree b) b = q.bNextFree b :=
    update_eq fun _ => rfl
  refine ⟨free', hperm, ?_⟩
  constructor
  · exact w.linked_removeHash hb
  · exact fun h => (w.distinct h).erase b
  · intro h a
    rw [(w.distinct h).mem_erase_iff, w.hashed, hmem, and_assoc]
  · intro a ha hd
    obtain ⟨hab, ha⟩ := (hmem a).mp ha
    obtain ⟨hna, hpa⟩ := w.loose a ha hd
    obtain ⟨hn, hp⟩ := w.not_self hb
    have hl : ¬(q.bNext b = some a ∨ q.bPrev b = some a) := fun hl =>
      ((w.hashed _ _).mp (w.mem_of_link hb hl).2).2.1 hd
    rw [not_or] at hl
    rw [removeHash_eq hn hp]
    exact ⟨(store_of_ne hl.2).trans hna, (store_of_ne hl.1).trans hpa⟩
  · show Ring (update q.bNextFree (q.bPrevFree b) (q.bNextFree b))
      (update q.bPrevFree (update q.bNextFree (q.bPrevFree b) (q.bNextFree b) b) (q.bPrevFree b))
      free'
    rw [hself]
    exact hring
  · exact hnd
  · show (if q.freeList = b then update q.bNextFree (q.bPrevFree b) (q.bNextFree b) b
      else q.freeList) ∈ free'
    rw [hself]
    split
    · exact hnext
    · rename_i hne
      exact (hmem _).mpr ⟨hne, w.entry⟩

theorem insertFree_eq (hne : q.freeList ≠ b) :
    q.insertFree b =
      { q with
        bNextFree := update (update q.bNextFree b q.freeList) (q.bPrevFree q.freeList) b
        bPrevFree := update (update q.bPrevFree b (q.bPrevFree q.freeList)) q.freeList b } := by
  simp only [insertFree, update_of_ne hne]

theorem insertHash_bNextFree (d : Nat) : (q.insertHash d h b).bNextFree = q.bNextFree := by
  unfold insertHash
  split <;> rfl

theorem linked_push (w : Wf q dev hash chain free) (hb : b ∉ free) (k h : Nat) :
    DList (update q.bNext b (q.hashTable k))
      (store (update q.bPrev b none) (q.hashTable k) (some b))
      none (update q.hashTable k (some b) h) (update chain k (b :: chain k) h) := by
  by_cases hh : h = k
  · subst hh
    rw [update_self, update_self]
    exact (w.linked h).push (w.distinct h) (w.not_mem_chain hb)
  rw [update_of_ne hh, update_of_ne hh]
  have hne : ∀ a ∈ chain h, a ≠ b := fun a ha => ne_of_mem_of_not_mem ha (w.not_mem_chain hb)
  refine (w.linked h).congr (fun a ha => update_of_ne (hne a ha) _ _) (fun a ha => ?_)
  rw [store_of_ne, update_of_ne (hne a ha)]
  -- The first buffer of the queue `k` is in no other queue.
  refine w.entry_ne fun hak => hh ?_
  rw [← ((w.hashed _ _).mp ha).2.2, ((w.hashed _ _).mp hak).2.2]

theorem insert (w : Wf q dev hash chain free) (hb : b ∉ free) :
    ∃ free' chain', free'.Perm (b :: free) ∧
      Wf ((q.insertFree b).insertHash (dev b) (hash b) b) dev hash chain' free' := by
  obtain ⟨free', hperm, hring⟩ := w.ring.insert w.nodup w.entry hb
  have hne : q.freeList ≠ b := fun he => hb (he ▸ w.entry)
  have hnd : free'.Nodup := hperm.nodup_iff.mpr (List.nodup_cons.mpr ⟨hb, w.nodup⟩)
  have hmem : ∀ a, a ∈ free' ↔ a = b ∨ a ∈ free := fun a => by rw [hperm.mem_iff, List.mem_cons]
  have hchain : ∀ h, ∀ a ∈ chain h, a ≠ b := fun h a ha =>
    ne_of_mem_of_not_mem ha (w.not_mem_chain hb)
  rw [insertFree_eq hne]
  by_cases hd : dev b = 0
  · refine ⟨free', chain, hperm, ?_⟩
    rw [insertHash, if_pos hd]
    constructor
    · intro h
      exact (w.linked h).congr (fun a ha => update_of_ne (hchain h a ha) _ _)
        (fun a ha => update_of_ne (hchain h a ha) _ _)
    · exact w.distinct
    · intro h a
      rw [w.hashed, hmem]
      constructor
      · exact fun ⟨ha, hk⟩ => ⟨.inr ha, hk⟩
      · rintro ⟨rfl | ha, hda, hk⟩
        · exact absurd hd hda
        · exact ⟨ha, hda, hk⟩
    · intro a ha hda
      by_cases hab : a = b
      · subst hab
        exact ⟨update_self .., update_self ..⟩
      · obtain ⟨hn, hp⟩ := w.loose a (((hmem a).mp ha).resolve_left hab) hda
        exact ⟨(update_of_ne hab _ _).trans hn, (update_of_ne hab _ _).trans hp⟩
    · exact hring
    · exact hnd
    · exact (hmem _).mpr (.inr w.entry)
  · refine ⟨free', update chain (hash b) (b :: chain (hash b)), hperm, ?_⟩
    rw [insertHash, if_neg hd]
    simp only [update_idem, update_self]
    constructor
    · exact w.linked_push hb (hash b)
    · exact fun h => update_of (p := fun _ => List.Nodup)
        (List.nodup_cons.mpr ⟨w.not_mem_chain hb, w.distinct _⟩) fun _ => w.distinct h
    · intro h a
      have hself : a ∈ update chain (hash b) (b :: chain (hash b)) h ↔
          a = b ∧ h = hash b ∨ a ∈ chain h := by
        by_cases hh : h = hash b
        · subst hh
          simp
        · simp [hh]
      rw [hself, hmem, w.hashed]
      constructor
      · rintro (⟨rfl, rfl⟩ | ⟨ha, hk⟩)
        · exact ⟨.inl rfl, hd, rfl⟩
        · exact ⟨.inr ha, hk⟩
      · rintro ⟨rfl | ha, hda, hk⟩
        · exact .inl ⟨rfl, hk.symm⟩
        · exact .inr ⟨ha, hda, hk⟩
    · intro a ha hda
      have hab : a ≠ b := fun hab => hd (hab ▸ hda)
      have ha := ((hmem a).mp ha).resolve_left hab
      obtain ⟨hn, hp⟩ := w.loose a ha hda
      refine ⟨(update_of_ne hab _ _).trans hn,
        (store_of_ne ?_).trans ((update_of_ne hab _ _).trans hp)⟩
      exact w.entry_ne fun hmem => ((w.hashed _ _).mp hmem).2.1 hda
    · exact hring
    · exact hnd
    · exact (hmem _).mpr (.inr w.entry)

end Wf

end Queues

/-- The queues hold all but private buffers, and each block once. -/
structure Wf {α : Type} (c : Cache α) (chain : Nat → List Nat) (free : List Nat) : Prop where
  queues : c.queues.Wf c.bDev c.hashOf chain free
  bound : ∀ b ∈ free, b < c.nrBuffers
  unique : ∀ a ∈ free, ∀ b ∈ free, c.bDev a ≠ 0 → c.bDev a = c.bDev b →
    c.bBlocknr a = c.bBlocknr b → a = b

variable {α : Type} {c : Cache α} {chain : Nat → List Nat} {free : List Nat} {xs : List Nat}
  {b : Nat}

theorem findLoop_eq {dev block n : Nat} {p q : Option Nat}
    (h : ProofKit.DList c.queues.bNext c.queues.bPrev p q xs) (hn : xs.length ≤ n) :
    findLoop c dev block n q = xs.find? fun b => c.bDev b = dev ∧ c.bBlocknr b = block := by
  induction xs generalizing p q n with
  | nil =>
    obtain rfl : q = none := h
    cases n <;> rfl
  | cons a xs ih =>
    obtain ⟨rfl, -, h⟩ := h
    obtain ⟨n, rfl⟩ : ∃ m, n = m + 1 := ⟨n - 1, by simp at hn; omega⟩
    simp only [findLoop, List.find?_cons]
    split
    · rename_i hm
      simp [hm]
    · rename_i hm
      simp [hm, ih h (by simpa using hn)]

theorem length_le_of_bound {n : Nat} (hnd : xs.Nodup) (hb : ∀ b ∈ xs, b < n) :
    xs.length ≤ n := by
  have hsub : xs ⊆ List.range n := fun b hmem => List.mem_range.mpr (hb b hmem)
  simpa using (List.subperm_of_subset hnd hsub).length_le

namespace Wf

theorem length_chain_le (w : Wf c chain free) (h : Nat) : (chain h).length ≤ c.nrBuffers :=
  length_le_of_bound (w.queues.distinct h) fun b hb =>
    w.bound b ((w.queues.hashed _ _).mp hb).1

theorem findBuffer_some (w : Wf c chain free) {dev block : Nat}
    (hf : findBuffer c dev block = some b) :
    b ∈ free ∧ c.bDev b = dev ∧ c.bBlocknr b = block ∧ dev ≠ 0 := by
  rw [findBuffer, findLoop_eq (w.queues.linked _) (w.length_chain_le _)] at hf
  obtain ⟨hb, hd, -⟩ := (w.queues.hashed _ _).mp (List.mem_of_find?_eq_some hf)
  have hkey := List.find?_some hf
  simp only [decide_eq_true_eq] at hkey
  exact ⟨hb, hkey.1, hkey.2, hkey.1 ▸ hd⟩

theorem findBuffer_none (w : Wf c chain free) {dev block : Nat}
    (hf : findBuffer c dev block = none) (hb : b ∈ free) (hd : dev ≠ 0) :
    ¬(c.bDev b = dev ∧ c.bBlocknr b = block) := by
  rintro ⟨rfl, rfl⟩
  rw [findBuffer, findLoop_eq (w.queues.linked _) (w.length_chain_le _), List.find?_eq_none] at hf
  have hmem : b ∈ chain (c.hashOf b) := (w.queues.hashed _ _).mpr ⟨hb, hd, rfl⟩
  simpa using hf b hmem

theorem remove (w : Wf c chain free) (hb : b ∈ free) (hlen : 2 ≤ free.length) :
    ∃ chain' free', (b :: free').Perm free ∧ Wf (removeFromQueues c b) chain' free' := by
  obtain ⟨free', hperm, hw⟩ := w.queues.remove hb hlen
  have hsub : ∀ a ∈ free', a ∈ free := fun a ha => hperm.mem_iff.mp (List.mem_cons_of_mem _ ha)
  exact ⟨_, free', hperm, hw, fun a ha => w.bound a (hsub a ha),
    fun a ha b hb => w.unique a (hsub a ha) b (hsub b hb)⟩

theorem congr (w : Wf c chain free) {c' : Cache α} (hq : c'.queues = c.queues)
    (hn : c'.nrBuffers = c.nrBuffers)
    (hd : ∀ a ∈ free, c'.bDev a = c.bDev a ∧ c'.bBlocknr a = c.bBlocknr a) :
    Wf c' chain free := by
  refine ⟨?_, fun b hb => hn ▸ w.bound b hb, fun a ha b hb => ?_⟩
  · rw [hq]
    refine w.queues.congr (fun a ha => (hd a ha).1) (fun a ha => ?_)
    rw [Cache.hashOf, (hd a ha).1, (hd a ha).2, Cache.hashOf]
  · rw [(hd a ha).1, (hd a ha).2, (hd b hb).1, (hd b hb).2]
    exact w.unique a ha b hb

theorem insert (w : Wf c chain free) (hb : b ∉ free) (hbn : b < c.nrBuffers)
    (hnew : c.bDev b ≠ 0 → ∀ a ∈ free, ¬(c.bDev a = c.bDev b ∧ c.bBlocknr a = c.bBlocknr b)) :
    ∃ chain' free', free'.Perm (b :: free) ∧ Wf (insertIntoQueues c b) chain' free' := by
  obtain ⟨free', chain', hperm, hw⟩ := w.queues.insert hb
  have hmem : ∀ a ∈ free', a = b ∨ a ∈ free := fun a ha =>
    List.mem_cons.mp (hperm.mem_iff.mp ha)
  refine ⟨chain', free', hperm, hw, fun a ha => ?_, fun a ha e he hda hdev hblk => ?_⟩
  · rcases hmem a ha with rfl | ha
    · exact hbn
    · exact w.bound a ha
  rcases hmem a ha with rfl | ha <;> rcases hmem e he with rfl | he
  · rfl
  · exact absurd ⟨hdev.symm, hblk.symm⟩ (hnew hda e he)
  · exact absurd ⟨hdev, hblk⟩ (hnew (hdev ▸ hda) a ha)
  · exact w.unique a ha e he hda hdev hblk

end Wf

end Linux001.Buffer
