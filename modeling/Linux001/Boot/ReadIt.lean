import Linux001.ProofKit.Sizes

/-! `read_it`, which loads the kernel from the floppy. What one BIOS call reads is limited by the
end of the track and by the end of the 64 KB segment. -/

namespace Linux001.Boot

def sectors : Nat := 18

structure Call where
  (count cylinder head sector address : Nat)
  failed : Bool

def Call.linear (c : Call) : Nat := (c.cylinder * 2 + c.head) * sectors + (c.sector - 1)

/-- The linear sectors asked for, each with the address it goes to. -/
def Call.reads (c : Call) : List (Nat × Nat) :=
  (List.range c.count).map fun k => (c.linear + k, c.address + 512 * k)

/-- The call is for some sectors of one track and crosses no 64 KB boundary. -/
def Call.Proper (c : Call) : Prop :=
  1 ≤ c.count ∧ 1 ≤ c.sector ∧ c.sector - 1 + c.count ≤ sectors ∧
    c.address % 65536 + 512 * c.count ≤ 65536

/-- The registers and variables of 16 bits, the memory, and the BIOS calls so far. -/
structure Loader where
  (es bx sread head track : Nat)
  mem : Nat → UInt8
  calls : List Call

def sub16 (a b : Nat) : Nat := (a + 65536 - b) % 65536

namespace Loader

def call (s : Loader) (ax : Nat) (failed : Bool) : Call :=
  ⟨ax % 256, s.track % 256, s.head % 256, (s.sread + 1) % 256, 16 * s.es + s.bx, failed⟩

def transfer (s : Loader) (c : Call) (data : Nat → UInt8) : Loader :=
  { s with
    calls := s.calls ++ [c]
    mem := fun a => if c.address ≤ a ∧ a < c.address + 512 * c.count then data a else s.mem a }

/-- The sectors to the end of the track, or else of the segment. -/
def count (s : Loader) : Nat :=
  let ax := sub16 sectors s.sread
  let cx := ax * 512 % 65536
  if cx + s.bx < 65536 ∨ (cx + s.bx) % 65536 = 0 then ax else sub16 0 s.bx / 512

def nextSegment (s : Loader) : Loader := { s with es := (s.es + 0x1000) % 65536, bx := 0 }

def advanceTrack (s : Loader) (ax : Nat) : Loader :=
  if (ax + s.sread) % 65536 = sectors then
    let ax := sub16 1 s.head
    { s with track := if ax = 0 then (s.track + 1) % 65536 else s.track, head := ax, sread := 0 }
  else { s with sread := (ax + s.sread) % 65536 }

def advance (s : Loader) (ax : Nat) : Loader :=
  let cx := ax * 512 % 65536
  if s.bx + cx < 65536 then { s.advanceTrack ax with bx := s.bx + cx }
    else (s.advanceTrack ax).nextSegment

end Loader

section

/- `bios n` is `none` if call number `n` succeeds; otherwise it is what the call leaves in the
memory it was to fill. -/
variable (floppy : Nat → UInt8) (bios : Nat → Option (Nat → UInt8))

def readTrack (ax : Nat) : (fuel : Nat) → Loader → Option Loader
  | 0, _ => none
  | fuel + 1, s =>
    match bios s.calls.length with
    | none =>
      let c := s.call ax false
      some (s.transfer c fun a => floppy (512 * c.linear + (a - c.address)))
    | some junk => readTrack ax fuel (s.transfer (s.call ax true) junk)

def rpRead (endseg : Nat) : (fuel : Nat) → Loader → Option Loader
  | 0, _ => none
  | fuel + 1, s =>
    if s.es < endseg then
      if s.count = 0 then rpRead endseg fuel s.nextSegment
      else (readTrack floppy bios s.count fuel s).bind fun t =>
        -- the BIOS returns the number of sectors in `al`
        rpRead endseg fuel (t.advance (s.count % 256))
    else some s

def readIt (endseg fuel : Nat) (s : Loader) : Option Loader :=
  if s.es % 0x1000 = 0 then rpRead floppy bios endseg fuel { s with bx := 0 } else none

end

variable {floppy mem : Nat → UInt8} {bios : Nat → Option (Nat → UInt8)} {n ax endseg : Nat}
  {s t : Loader} {c : Call} {junk : Nat → UInt8}

/-- The next sector to read is sector `n + 1`, and goes after the `n` before it. -/
structure Placed (n : Nat) (s : Loader) : Prop where
  linear : (s.track * 2 + s.head) * 18 + s.sread = n + 1
  address : 16 * s.es + s.bx = 0x10000 + 512 * n
  segment : s.es % 0x1000 = 0
  offset : s.bx < 65536
  sread : s.sread < 18
  head : s.head < 2

/-- The sectors from 1 to `n` are in the memory, each of them read once. -/
structure Loaded (floppy mem : Nat → UInt8) (n : Nat) (s : Loader) : Prop where
  image : ∀ x < 512 * n, s.mem (0x10000 + x) = floppy (512 + x)
  once : (s.calls.filter (!·.failed)).flatMap Call.reads =
    (List.range n).map fun k => (k + 1, 0x10000 + 512 * k)
  proper : ∀ c ∈ s.calls, c.Proper
  above : ∀ a ≥ 0x90000, s.mem a = mem a

/-- The call asks for sectors from `n + 1` on at their addresses. -/
structure Aimed (n : Nat) (c : Call) : Prop where
  proper : c.Proper
  linear : c.linear = n + 1
  address : c.address = 0x10000 + 512 * n
  below : c.address + 512 * c.count ≤ 0x90000

theorem Placed.transfer (h : Placed n s) : Placed n (s.transfer c junk) :=
  ⟨h.linear, h.address, h.segment, h.offset, h.sread, h.head⟩

theorem Loaded.proper_transfer (h : Loaded floppy mem n s) (hc : Aimed n c) :
    ∀ d ∈ (s.transfer c junk).calls, d.Proper := by
  intro d hd
  obtain hd | hd := List.mem_append.mp hd
  · exact h.proper d hd
  · exact List.mem_singleton.mp hd ▸ hc.proper

theorem Loaded.above_transfer (h : Loaded floppy mem n s) (hc : Aimed n c) :
    ∀ a ≥ 0x90000, (s.transfer c junk).mem a = mem a := by
  intro a ha
  have hbelow := hc.below
  exact (if_neg (by omega)).trans (h.above a ha)

theorem Loaded.fail (h : Loaded floppy mem n s) (hc : Aimed n c) (hfail : c.failed = true) :
    Loaded floppy mem n (s.transfer c junk) := by
  refine ⟨fun x hx => ?_, ?_, h.proper_transfer hc, h.above_transfer hc⟩
  · have haddress := hc.address
    exact (if_neg (by omega)).trans (h.image x hx)
  · simp [Loader.transfer, hfail, h.once]

theorem Loaded.read (h : Loaded floppy mem n s) (hc : Aimed n c) (hfail : c.failed = false) :
    Loaded floppy mem (n + c.count)
      (s.transfer c fun a => floppy (512 * c.linear + (a - c.address))) := by
  refine ⟨fun x hx => ?_, ?_, h.proper_transfer hc, h.above_transfer hc⟩
  · have haddress := hc.address
    by_cases hold : x < 512 * n
    · exact (if_neg (by omega)).trans (h.image x hold)
    · refine (if_pos (by omega)).trans (congrArg floppy ?_)
      rw [hc.linear, haddress]
      omega
  · have hnew : c.reads = (List.range c.count).map fun k =>
      (n + k + 1, 0x10000 + 512 * (n + k)) := by
      unfold Call.reads
      rw [hc.linear, hc.address]
      refine List.map_congr_left fun k _ => Prod.ext (Nat.add_right_comm n 1 k) ?_
      exact (Nat.add_assoc ..).trans (congrArg (0x10000 + ·) (Nat.mul_add 512 n k).symm)
    simp [Loader.transfer, hfail, h.once, hnew, List.range_add]

theorem Loaded.advance (h : Loaded floppy mem n s) : Loaded floppy mem n (s.advance ax) := by
  simp only [Loader.advance, Loader.advanceTrack, Loader.nextSegment]
  split_ifs <;> exact ⟨h.image, h.once, h.proper, h.above⟩

theorem sub16_of_le {a b : Nat} (hb : b ≤ a) (ha : a < 65536) : sub16 a b = a - b := by
  unfold sub16
  omega

theorem Placed.count_bounds (h : Placed n s) :
    1 ≤ s.count ∧ s.sread + s.count ≤ 18 ∧ s.bx + 512 * s.count ≤ 65536 := by
  obtain ⟨-, haddr, hseg, hbx, hsread, -⟩ := h
  have hleft : sub16 sectors s.sread = 18 - s.sread := sub16_of_le (Nat.le_of_lt hsread) (by decide)
  simp only [Loader.count, hleft]
  split
  · omega
  · unfold sub16
    omega

theorem Placed.lt (h : Placed n s) (hes : s.es < 0x9000) : n < 1024 := by
  obtain ⟨-, haddr, hseg, hbx, -, -⟩ := h
  omega

theorem Placed.aimed (h : Placed n s) (hes : s.es < 0x9000) (failed : Bool) :
    Aimed n (s.call s.count failed) ∧ s.count % 256 = s.count := by
  obtain ⟨hpos, htrack, hsegment⟩ := h.count_bounds
  obtain ⟨hlin, haddr, hseg, -, -, hhead⟩ := h
  have hcount : s.count % 256 = s.count := Nat.mod_eq_of_lt (by omega)
  have hsector : (s.sread + 1) % 256 = s.sread + 1 := Nat.mod_eq_of_lt (by omega)
  have hcylinder : s.track % 256 = s.track := Nat.mod_eq_of_lt (by omega)
  have hside : s.head % 256 = s.head := Nat.mod_eq_of_lt (by omega)
  refine ⟨⟨⟨?_, ?_, ?_, ?_⟩, ?_, haddr, ?_⟩, hcount⟩
  all_goals simp only [Loader.call, Call.linear, hcount, hsector, hcylinder, hside, sectors]
  all_goals omega

theorem Placed.advanceTrack (h : Placed n s) (hes : s.es < 0x9000) (htrack : s.sread + ax ≤ 18) :
    let t := s.advanceTrack ax
    (t.track * 2 + t.head) * 18 + t.sread = n + ax + 1 ∧ t.sread < 18 ∧ t.head < 2 ∧
    t.es = s.es := by
  have hn := h.lt hes
  obtain ⟨hlin, -, -, -, -, hhead⟩ := h
  unfold Loader.advanceTrack sectors
  split
  · rw [sub16_of_le (by omega) (by decide)]
    dsimp only
    refine ⟨?_, by decide, by omega, rfl⟩
    split <;> omega
  · dsimp only
    omega

theorem Placed.advance (h : Placed n s) (hes : s.es < 0x9000) (htrack : s.sread + ax ≤ 18)
    (hsegment : s.bx + 512 * ax ≤ 65536) : Placed (n + ax) (s.advance ax) := by
  obtain ⟨hlin, hsread, hhead, hsame⟩ := h.advanceTrack hes htrack
  obtain ⟨-, haddr, hseg, -, -, -⟩ := h
  simp only [Loader.advance]
  split
  · refine ⟨hlin, ?_, hsame ▸ hseg, by assumption, hsread, hhead⟩
    simp only [hsame]
    omega
  · unfold Loader.nextSegment
    refine ⟨hlin, ?_, ?_, ?_, hsread, hhead⟩
    all_goals
      dsimp only
      omega

/-- `read_track` ends with the sectors it was asked for. -/
theorem readTrack_loaded (hes : s.es < 0x9000) (hplaced : Placed n s)
    (hloaded : Loaded floppy mem n s) {d : Nat} (hbios : bios (s.calls.length + d) = none) :
    ∃ t F, (∀ fuel ≥ F, readTrack floppy bios s.count fuel s = some t) ∧ Placed n t ∧
      Loaded floppy mem (n + s.count) t ∧ t.count = s.count ∧ t.es = s.es := by
  induction d using Nat.strongRecOn generalizing s with
  | ind d ih =>
    cases hcall : bios s.calls.length with
    | none =>
      obtain ⟨haimed, hcount⟩ := hplaced.aimed hes false
      have hread := hloaded.read haimed rfl
      rw [show (s.call s.count false).count = s.count from hcount] at hread
      refine ⟨_, 1, fun fuel hfuel => ?_, hplaced.transfer, hread, rfl, rfl⟩
      obtain ⟨fuel, rfl⟩ := Nat.exists_eq_add_of_le' hfuel
      rw [readTrack, hcall]
    | some junk =>
      obtain ⟨d, rfl⟩ : ∃ d', d = d' + 1 := by
        cases d with
        | zero => cases hcall.symm.trans hbios
        | succ d => exact ⟨d, rfl⟩
      obtain ⟨t, F, hrun, ht⟩ := ih d (Nat.lt_succ_self d)
        (s := s.transfer (s.call s.count true) junk) hes
        hplaced.transfer (hloaded.fail (hplaced.aimed hes true).1 rfl)
        (by simpa [Loader.transfer, Nat.add_assoc, Nat.add_comm 1] using hbios)
      refine ⟨t, F + 1, fun fuel hfuel => ?_, ht⟩
      obtain ⟨fuel, rfl⟩ := Nat.exists_eq_add_of_le' hfuel
      rw [← Nat.add_assoc, readTrack, hcall]
      exact hrun _ (by omega)

/-- The loop ends once `es` is past the kernel. -/
theorem rpRead_loaded (hend : endseg ≤ 0x9000) (hbios : ∀ k, ∃ m ≥ k, bios m = none)
    (hplaced : Placed n s) (hloaded : Loaded floppy mem n s) {d : Nat} (hd : 1024 ≤ n + d) :
    ∃ t F m, (∀ fuel ≥ F, rpRead floppy bios endseg fuel s = some t) ∧
      16 * endseg ≤ 0x10000 + 512 * m ∧
      Loaded floppy mem m t := by
  induction d using Nat.strongRecOn generalizing n s with
  | ind d ih =>
    have haddr := hplaced.address
    by_cases hes : s.es < endseg
    · have hlow : s.es < 0x9000 := Nat.lt_of_lt_of_le hes hend
      obtain ⟨m, hm, hnone⟩ := hbios s.calls.length
      obtain ⟨d', rfl⟩ := Nat.exists_eq_add_of_le hm
      obtain ⟨t, F, hrun, htplaced, htloaded, hcount, htes⟩ :=
        readTrack_loaded hlow hplaced hloaded hnone
      obtain ⟨hpos, htrack, hsegment⟩ := htplaced.count_bounds
      rw [hcount] at hpos htrack hsegment
      have hroom := hplaced.lt hlow
      have hsame : s.count % 256 = s.count := Nat.mod_eq_of_lt (by omega)
      have hnext : Placed _ (t.advance s.count) := htplaced.advance (htes ▸ hlow) htrack hsegment
      obtain ⟨u, F', m, hrest, hu⟩ := ih (d - s.count) (by omega) hnext htloaded.advance (by omega)
      refine ⟨u, F + F' + 1, m, fun fuel hfuel => ?_, hu⟩
      obtain ⟨fuel, rfl⟩ := Nat.exists_eq_add_of_le' hfuel
      rw [← Nat.add_assoc, rpRead, if_pos hes, if_neg (by omega), hrun _ (by omega), hsame]
      exact hrest _ (by omega)
    · refine ⟨s, 1, n, fun fuel hfuel => ?_, by omega, hloaded⟩
      obtain ⟨fuel, rfl⟩ := Nat.exists_eq_add_of_le' hfuel
      rw [rpRead, if_neg hes]

/-- The boot sector calls `read_it` with `es` at `SYSSEG`. -/
def start (bx : Nat) (mem : Nat → UInt8) : Loader := ⟨0x1000, bx, 1, 0, 0, mem, []⟩

theorem readIt_loads (floppy mem : Nat → UInt8) (bios : Nat → Option (Nat → UInt8))
    (hbios : ∀ k, ∃ m ≥ k, bios m = none) (syssize bx : Nat) (hsize : syssize ≤ 0x8000) :
    ∃ t F n, (∀ fuel ≥ F, readIt floppy bios (0x1000 + syssize) fuel (start bx mem) = some t) ∧
      16 * syssize ≤ 512 * n ∧ Loaded floppy mem n t := by
  have hplaced : Placed 0 (start 0 mem) := by constructor <;> simp [start]
  have hloaded : Loaded floppy mem 0 (start 0 mem) := ⟨nofun, rfl, nofun, fun _ _ => rfl⟩
  obtain ⟨t, F, n, hrun, hn, ht⟩ :=
    rpRead_loaded (Nat.add_le_add_left hsize 0x1000) hbios hplaced hloaded
    (Nat.le_add_left 1024 0)
  refine ⟨t, F, n, fun fuel hfuel => ?_, by omega, ht⟩
  exact (if_pos (Nat.mod_self 0x1000)).trans (hrun fuel hfuel)

/-- Every call that has an odd number fails. -/
theorem readIt_loads_after_failures : ∃ t F n, (∀ fuel ≥ F, readIt (fun _ => 7)
      (fun k => if k % 2 = 1 then some fun _ => 0 else none) (0x1000 + 0x8000) fuel
        (start 0 fun _ => 1) =
        some t) ∧
    16 * 0x8000 ≤ 512 * n ∧ Loaded (fun _ => 7) (fun _ => 1) n t :=
  readIt_loads _ _ _ (fun k => ⟨2 * k, by omega, if_neg (by omega)⟩) 0x8000 0 (Nat.le_refl _)

end Linux001.Boot
