import Linux001.Console.Model

/-! What the operations of the screen do to its cells: the loops over video memory, the two kinds of
scrolling, erasing, and insertion and deletion in a line. -/

namespace Linux001.Console

open Function ProofKit

/-- A 16-bit store that stays in video memory. -/
def InScreen (a : Nat) : Prop := screenStart ≤ a ∧ a + 2 ≤ screenEnd

namespace Vga

variable {s s' s'' : Vga} {a b d n k p q v : Nat} {f g : Nat → Nat}

def cell (s : Vga) (k : Nat) : Nat := s.peek (s.origin + 2 * k)

/-- The screen is in video memory, and the cursors and the region on it. -/
structure Valid (s : Vga) : Prop where
  start_le : screenStart ≤ s.origin
  scrEnd_eq : s.scrEnd = s.origin + 2 * lines * columns
  le_end : s.scrEnd ≤ screenEnd
  x_le : s.x ≤ columns
  y_lt : s.y < lines
  top_lt : s.top < s.bottom
  bottom_le : s.bottom ≤ lines
  pos_eq : s.pos = s.origin + 2 * (s.y * columns + s.x)
  savedX_le : s.savedX ≤ columns
  savedY_lt : s.savedY < lines

theorem Valid.bounds (h : s.Valid) :
    0xb8000 ≤ s.origin ∧ s.scrEnd = s.origin + 4000 ∧ s.scrEnd ≤ 0xc0000 ∧ s.x ≤ 80 ∧ s.y < 25 ∧
      s.top < s.bottom ∧ s.bottom ≤ 25 ∧ s.pos = s.origin + 2 * (s.y * 80 + s.x) ∧
      s.savedX ≤ 80 ∧ s.savedY < 25 :=
  ⟨h.start_le, h.scrEnd_eq, h.le_end, h.x_le, h.y_lt, h.top_lt, h.bottom_le, h.pos_eq, h.savedX_le,
    h.savedY_lt⟩

theorem u64_eq (h : n < 2 ^ 64) : u64 n = n := Nat.mod_eq_of_lt h

theorem u32_eq (h : n < 2 ^ 32) : u32 n = n := Nat.mod_eq_of_lt h

theorem sub64_eq (h : b ≤ a) (ha : a < 2 ^ 64) : sub64 a b = a - b := by
  unfold sub64
  omega

structure Stores (lo hi : Nat) (s s' : Vga) : Prop where
  same : s' = { s with mem := s'.mem, stores := s'.stores }
  stores : ∀ a ∈ s'.stores, a ∈ s.stores ∨ lo ≤ a ∧ a + 2 ≤ hi
  outside : ∀ x, x < lo ∨ hi ≤ x → s'.mem x = s.mem x

namespace Stores

variable {lo hi lo' hi' : Nat}

theorem refl (lo hi : Nat) (s : Vga) : Stores lo hi s s := ⟨rfl, fun _ => .inl, fun _ _ => rfl⟩

theorem trans (h : Stores lo hi s s') (h' : Stores lo hi s' s'') : Stores lo hi s s'' := by
  refine ⟨?_, ?_, ?_⟩
  · rw [h'.same, h.same]
  · intro a ha
    rcases h'.stores a ha with hold | hnew
    · exact h.stores a hold
    · exact .inr hnew
  · intro x hx
    rw [h'.outside x hx, h.outside x hx]

theorem mono (h : Stores lo' hi' s s') (hlo : lo ≤ lo') (hhi : hi' ≤ hi) : Stores lo hi s s' := by
  refine ⟨h.same, ?_, fun x hx => h.outside x (by omega)⟩
  intro a ha
  rcases h.stores a ha with hold | hnew
  · exact .inl hold
  · exact .inr (by omega)

theorem poke (s : Vga) (ha : lo ≤ a) (hhi : a + 2 ≤ hi) (w : Nat) :
    Stores lo hi s (s.poke a w) := by
  refine ⟨rfl, ?_, ?_⟩
  · intro b hb
    rcases List.mem_cons.mp hb with rfl | hold
    · exact .inr ⟨ha, hhi⟩
    · exact .inl hold
  · intro x hx
    rcases hx with hx | hx
    · exact Bytes.store_of_lt (by omega)
    · exact Bytes.store_of_ge (by omega)

theorem peek (h : Stores lo hi s s') (ha : a + 2 ≤ lo ∨ hi ≤ a) : s'.peek a = s.peek a := by
  apply Bytes.load_congr
  intro i hi
  exact h.outside _ (by omega)

theorem origin (h : Stores lo hi s s') : s'.origin = s.origin := by rw [h.same]

theorem frame (h : Stores lo hi s s') : s'.x = s.x ∧ s'.y = s.y ∧ s'.top = s.top ∧
    s'.bottom = s.bottom ∧ s'.savedX = s.savedX ∧ s'.savedY = s.savedY := by
  rw [h.same]
  exact ⟨rfl, rfl, rfl, rfl, rfl, rfl⟩

end Stores

theorem peek_poke_self (s : Vga) (a w : Nat) : (s.poke a w).peek a = w % 2 ^ 16 :=
  Bytes.load_store

theorem peek_poke_of_ne (s : Vga) (w : Nat) (h : b + 2 ≤ a ∨ a + 2 ≤ b) :
    (s.poke a w).peek b = s.peek b :=
  Bytes.load_store_of_disjoint h

theorem peek_lt (s : Vga) (a : Nat) : s.peek a < 2 ^ 16 := Bytes.load_lt

theorem memsetw_stores (d v n : Nat) (s : Vga) : Stores d (d + 2 * n) s (memsetw d v n s) := by
  induction n generalizing d s with
  | zero => exact .refl _ _ s
  | succ n ih =>
    exact (Stores.poke s le_rfl (by omega) v).trans
      ((ih (d + 2) _).mono (by omega) (by omega))

theorem peek_memsetw (hv : v < 2 ^ 16) (hk : k < n) : (memsetw d v n s).peek (d + 2 * k) = v := by
  induction n generalizing d k s with
  | zero => omega
  | succ n ih =>
    rw [memsetw]
    cases k with
    | zero =>
      rw [(memsetw_stores (d + 2) v n _).peek (.inl (by omega)), Nat.mul_zero, Nat.add_zero,
        peek_poke_self, Nat.mod_eq_of_lt hv]
    | succ k =>
      rw [show d + 2 * (k + 1) = d + 2 + 2 * k by omega]
      exact ih (by omega)

theorem memcpyw_stores (d q n : Nat) (s : Vga) : Stores d (d + 2 * n) s (memcpyw d q n s) := by
  induction n generalizing d q s with
  | zero => exact .refl _ _ s
  | succ n ih =>
    exact (Stores.poke s le_rfl (by omega) _).trans
      ((ih (d + 2) (q + 2) _).mono (by omega) (by omega))

theorem memcpywBackward_stores (d q n : Nat) (s : Vga) :
    Stores d (d + 2 * n) s (memcpywBackward d q n s) := by
  induction n generalizing s with
  | zero => exact .refl _ _ s
  | succ n ih =>
    exact (Stores.poke s (by omega) (by omega) _).trans ((ih _).mono le_rfl (by omega))

theorem store_peek {x : Nat} (hlo : a ≤ x) (hhi : x < a + 2) :
    s.mem.store a 2 (s.peek q) x = s.mem (q + (x - a)) := by
  rw [Bytes.store, if_pos ⟨hlo, hhi⟩]
  exact (Bytes.byte_of_load (by omega)).symm

theorem memcpyw_mem (h : d ≤ q) : (memcpyw d q n s).mem = s.mem.copy q d (2 * n) := by
  induction n generalizing d q s with
  | zero =>
    funext x
    rw [memcpyw, Bytes.copy, Bytes.fill_of_outside (by omega)]
  | succ n ih =>
    rw [memcpyw, ih (by omega)]
    funext x
    rw [Bytes.copy, Bytes.copy, Bytes.fill, Bytes.fill]
    show (if _ then s.mem.store d 2 (s.peek q) _ else s.mem.store d 2 (s.peek q) x) = _
    split
    · rw [if_pos (by omega), Bytes.store_of_ge (by omega)]
      congr 1
      omega
    · split
      · exact store_peek (by omega) (by omega)
      · by_cases hx : x < d
        · exact Bytes.store_of_lt hx
        · exact Bytes.store_of_ge (by omega)

theorem memcpywBackward_mem (h : q ≤ d) :
    (memcpywBackward d q n s).mem = s.mem.copy q d (2 * n) := by
  induction n generalizing s with
  | zero =>
    funext x
    rw [memcpywBackward, Bytes.copy, Bytes.fill_of_outside (by omega)]
  | succ n ih =>
    rw [memcpywBackward, ih]
    funext x
    rw [Bytes.copy, Bytes.copy, Bytes.fill, Bytes.fill]
    show (if _ then s.mem.store (d + 2 * n) 2 (s.peek (q + 2 * n)) _
      else s.mem.store (d + 2 * n) 2 (s.peek (q + 2 * n)) x) = _
    split
    · rw [if_pos (by omega), Bytes.store_of_lt (by omega)]
    split
    · rw [store_peek (by omega) (by omega)]
      congr 1
      omega
    · by_cases hx : x < d
      · exact Bytes.store_of_lt (by omega)
      · exact Bytes.store_of_ge (by omega)

/-- The cells become `f`, with stores in video memory; the origin may move. -/
structure Paints (s s' : Vga) (f : Nat → Nat) : Prop where
  valid : s'.Valid
  x : s'.x = s.x
  y : s'.y = s.y
  top : s'.top = s.top
  bottom : s'.bottom = s.bottom
  savedX : s'.savedX = s.savedX
  savedY : s'.savedY = s.savedY
  cells : ∀ k < 2000, s'.cell k = f k
  stores : ∀ a ∈ s'.stores, a ∈ s.stores ∨ InScreen a

theorem Paints.congr (h : Paints s s' f) (hfg : ∀ k < 2000, f k = g k) :
    Paints s s' g :=
  { h with cells := fun k hk => (h.cells k hk).trans (hfg k hk) }

theorem Paints.trans (h : Paints s s' f) (h' : Paints s' s'' g) : Paints s s'' g where
  valid := h'.valid
  x := h'.x.trans h.x
  y := h'.y.trans h.y
  top := h'.top.trans h.top
  bottom := h'.bottom.trans h.bottom
  savedX := h'.savedX.trans h.savedX
  savedY := h'.savedY.trans h.savedY
  cells := h'.cells
  stores a ha := (h'.stores a ha).elim (h.stores a) .inr

theorem Valid.paints (hs : s.Valid) (h : Stores (s.origin + 2 * p) (s.origin + 2 * q) s s')
    (hq : q ≤ 2000) (hf : ∀ k < 2000, s'.peek (s.origin + 2 * k) = f k) :
    Paints s s' f := by
  have hb := hs.bounds
  obtain ⟨hx, hy, htop, hbottom, hsavedX, hsavedY⟩ := h.frame
  refine ⟨?_, hx, hy, htop, hbottom, hsavedX, hsavedY, ?_, ?_⟩
  · rw [h.same]
    exact ⟨hs.start_le, hs.scrEnd_eq, hs.le_end, hs.x_le, hs.y_lt, hs.top_lt, hs.bottom_le,
      hs.pos_eq, hs.savedX_le, hs.savedY_lt⟩
  · intro k hk
    rw [cell, h.origin]
    exact hf k hk
  · intro a ha
    rcases h.stores a ha with hold | hnew
    · exact .inl hold
    · right
      show 0xb8000 ≤ a ∧ a + 2 ≤ 0xc0000
      omega

theorem Valid.memsetw (hs : s.Valid) (ha : a = s.origin + 2 * p) (hn : p + n ≤ 2000) :
    Paints s (memsetw a blank n s) fun k => if p ≤ k ∧ k < p + n then blank else s.cell k := by
  subst ha
  have h := memsetw_stores (s.origin + 2 * p) blank n s
  rw [show s.origin + 2 * p + 2 * n = s.origin + 2 * (p + n) by omega] at h
  refine hs.paints h hn fun k hk => ?_
  split
  · next hin =>
    rw [show s.origin + 2 * k = s.origin + 2 * p + 2 * (k - p) by omega]
    exact peek_memsetw (by decide) (by omega)
  · next hout => exact h.peek (by omega)

theorem Valid.copies (hs : s.Valid) (h : Stores (s.origin + 2 * p) (s.origin + 2 * p + 2 * n) s s')
    (hmem : s'.mem = s.mem.copy (s.origin + 2 * q) (s.origin + 2 * p) (2 * n)) (hn : p + n ≤ 2000) :
    Paints s s' fun k => if p ≤ k ∧ k < p + n then s.cell (q + (k - p)) else s.cell k := by
  rw [show s.origin + 2 * p + 2 * n = s.origin + 2 * (p + n) by omega] at h
  refine hs.paints h hn fun k hk => ?_
  split
  · next hin =>
    rw [peek, hmem, show s.origin + 2 * k = s.origin + 2 * p + 2 * (k - p) by omega,
      Bytes.load_copy_inside (by omega)]
    congr 1
    omega
  · next hout => exact h.peek (by omega)

def shiftUp (top bottom : Nat) (f : Nat → Nat) (k : Nat) : Nat :=
  if top * 80 ≤ k ∧ k < bottom * 80 then
    if k + 80 < bottom * 80 then f (k + 80) else blank
  else f k

def shiftDown (top bottom : Nat) (f : Nat → Nat) (k : Nat) : Nat :=
  if top * 80 ≤ k ∧ k < bottom * 80 then
    if (top + 1) * 80 ≤ k then f (k - 80) else blank
  else f k

theorem Valid.row (hs : s.Valid) {y : Nat} (hy : y ≤ 25) :
    u64 (s.origin + 2 * 80 * y) = s.origin + 2 * (y * 80) := by
  have hb := hs.bounds
  rw [u64_eq (by omega)]
  omega

theorem Valid.count (hs : s.Valid) :
    u64 (sub64 (sub64 s.bottom s.top) 1 * 80) = (s.bottom - s.top - 1) * 80 := by
  have hb := hs.bounds
  rw [sub64_eq (a := s.bottom) (by omega) (by omega), sub64_eq (by omega) (by omega),
    u64_eq (by omega)]

/-- The lines from `q` on are copied to `p`, and the line `r` is cleared. -/
theorem Valid.scroll (hs : s.Valid) {r y : Nat}
    (h : Stores (s.origin + 2 * p) (s.origin + 2 * p + 2 * n) s t)
    (hmem : t.mem = s.mem.copy (s.origin + 2 * q) (s.origin + 2 * p) (2 * n)) (hn : p + n ≤ 2000)
    (hy : y = r) (hr : r < 25)
    (hf : ∀ k < 2000, (if r * 80 ≤ k ∧ k < r * 80 + 80 then blank else
      if p ≤ k ∧ k < p + n then s.cell (q + (k - p)) else s.cell k) = f k) :
    Paints s (Vga.memsetw (u64 (t.origin + 2 * 80 * y)) blank 80 t) f ∧
      (Vga.memsetw (u64 (t.origin + 2 * 80 * y)) blank 80 t).origin = s.origin := by
  have hcopy := hs.copies h hmem hn
  have hset := hcopy.valid.memsetw (n := 80) (hcopy.valid.row (hy.trans_le hr.le)) (by omega)
  refine ⟨(hcopy.trans hset).congr fun k hk => ?_, (memsetw_stores _ _ _ t).origin.trans h.origin⟩
  rw [hcopy.cells k hk, hy]
  exact hf k hk

theorem Valid.scrup_region (hs : s.Valid) (h : ¬ (s.top = 0 ∧ s.bottom = 25)) :
    Paints s s.scrup (shiftUp s.top s.bottom s.cell) ∧ s.scrup.origin = s.origin := by
  have hb := hs.bounds
  have hstores := memcpyw_stores (s.origin + 2 * (s.top * 80))
    (s.origin + 2 * ((s.top + 1) * 80)) ((s.bottom - s.top - 1) * 80) s
  rw [scrup, if_neg h, hs.count, hs.row (by omega), hs.row (by omega)]
  refine hs.scroll (r := s.bottom - 1) hstores (memcpyw_mem (by omega)) (by omega) ?_ (by omega)
    fun k hk => ?_
  · rw [hstores.frame.2.2.2.1, sub64_eq (by omega) (by omega)]
  · unfold shiftUp
    split
    · rw [if_pos (by omega), if_neg (by omega)]
    · split
      · rw [if_pos (by omega), if_pos (by omega)]
        exact congrArg s.cell (by omega)
      · rw [if_neg (by omega)]

def advance (s : Vga) : Vga :=
  { s with origin := s.origin + 160, pos := s.pos + 160, scrEnd := s.scrEnd + 160 }

theorem Valid.scrup_eq (hs : s.Valid) (htop : s.top = 0) (hbottom : s.bottom = 25) :
    s.scrup =
      if 0xc0000 < s.scrEnd + 160 then
        let t := Vga.memsetw (0xb8000 + 3840) blank 80
          (memcpyw 0xb8000 (s.origin + 160) 1920 s.advance)
        { t with
          scrEnd := sub64 t.scrEnd (sub64 t.origin 0xb8000)
          pos := sub64 t.pos (sub64 t.origin 0xb8000)
          origin := 0xb8000 }
      else Vga.memsetw s.scrEnd blank 80 s.advance := by
  have hb := hs.bounds
  have hmoved : { s with
      origin := u64 (s.origin + 2 * 80)
      pos := u64 (s.pos + 2 * 80)
      scrEnd := u64 (s.scrEnd + 2 * 80) } = s.advance := by
    rw [u64_eq (n := s.origin + 2 * 80) (by omega), u64_eq (n := s.pos + 2 * 80) (by omega),
      u64_eq (n := s.scrEnd + 2 * 80) (by omega)]
    rfl
  have hlast : sub64 s.advance.scrEnd (2 * 80) = s.scrEnd := by
    show sub64 (s.scrEnd + 160) (2 * 80) = s.scrEnd
    rw [sub64_eq (by omega) (by omega)]
    omega
  rw [scrup, if_pos ⟨htop, hbottom⟩, hmoved]
  show (if 0xc0000 < s.scrEnd + 160 then _
    else Vga.memsetw (sub64 s.advance.scrEnd (2 * 80)) _ _ _) = _
  rw [hlast]
  rfl

theorem shiftUp_screen {s : Vga} (htop : s.top = 0) (hbottom : s.bottom = 25) (hk : k < 2000) :
    shiftUp s.top s.bottom s.cell k =
      if k < 1920 then s.peek (s.origin + 160 + 2 * k) else blank := by
  rw [shiftUp, htop, hbottom, if_pos (by omega)]
  split
  · rw [if_pos (by omega), cell]
    exact congrArg s.peek (by omega)
  · rw [if_neg (by omega)]

theorem Valid.scrup_moves (hs : s.Valid) (htop : s.top = 0) (hbottom : s.bottom = 25)
    (hroom : s.scrEnd + 160 ≤ 0xc0000) : Paints s s.scrup (shiftUp s.top s.bottom s.cell) := by
  have hb := hs.bounds
  rw [hs.scrup_eq htop hbottom, if_neg (by omega)]
  have hset := memsetw_stores s.scrEnd blank 80 s.advance
  have hblank : ∀ k < 80, (Vga.memsetw s.scrEnd blank 80 s.advance).peek (s.scrEnd + 2 * k) =
    blank := fun k hk => peek_memsetw (by decide) hk
  revert hset hblank
  generalize Vga.memsetw s.scrEnd blank 80 s.advance = u
  intro hset hblank
  have hadvance : s.advance.Valid := by
    refine ⟨?_, ?_, hroom, hs.x_le, hs.y_lt, hs.top_lt, hs.bottom_le, ?_, hs.savedX_le,
      hs.savedY_lt⟩
    · show 0xb8000 ≤ s.origin + 160
      omega
    · show s.scrEnd + 160 = s.origin + 160 + 4000
      omega
    · show s.pos + 160 = s.origin + 160 + 2 * (s.y * 80 + s.x)
      omega
  have hwindow : Stores (s.advance.origin + 2 * 1920) (s.advance.origin + 2 * 2000) s.advance u :=
    hset.mono (show s.origin + 160 + 2 * 1920 ≤ s.scrEnd by omega)
      (show s.scrEnd + 2 * 80 ≤ s.origin + 160 + 2 * 2000 by omega)
  have hpaint := hadvance.paints (f := shiftUp s.top s.bottom s.cell) hwindow (by omega) ?_
  · exact ⟨hpaint.valid, hpaint.x, hpaint.y, hpaint.top, hpaint.bottom, hpaint.savedX,
      hpaint.savedY, hpaint.cells, hpaint.stores⟩
  intro k hk
  show u.peek (s.origin + 160 + 2 * k) = _
  rw [shiftUp_screen htop hbottom hk]
  split
  · exact hset.peek (.inl (by omega))
  · rw [show s.origin + 160 + 2 * k = s.scrEnd + 2 * (k - 1920) by omega]
    exact hblank _ (by omega)

theorem Valid.scrup_wraps (hs : s.Valid) (htop : s.top = 0) (hbottom : s.bottom = 25)
    (hend : 0xc0000 < s.scrEnd + 160) : Paints s s.scrup (shiftUp s.top s.bottom s.cell) := by
  have hb := hs.bounds
  rw [hs.scrup_eq htop hbottom, if_pos hend]
  have hcopy := memcpyw_stores 0xb8000 (s.origin + 160) 1920 s.advance
  have hmem : (memcpyw 0xb8000 (s.origin + 160) 1920 s.advance).mem =
    s.mem.copy (s.origin + 160) 0xb8000 (2 * 1920) := memcpyw_mem (by omega)
  revert hcopy hmem
  generalize memcpyw 0xb8000 (s.origin + 160) 1920 s.advance = t
  intro hcopy hmem
  have hset := memsetw_stores (0xb8000 + 3840) blank 80 t
  have hblank : ∀ k < 80, (Vga.memsetw (0xb8000 + 3840) blank 80 t).peek (0xb8000 + 3840 + 2 * k) =
    blank := fun k hk => peek_memsetw (by decide) hk
  revert hset hblank
  generalize Vga.memsetw (0xb8000 + 3840) blank 80 t = u
  intro hset hblank
  have hall : Stores 0xb8000 (0xb8000 + 4000) s.advance u :=
    (hcopy.mono (by omega) (by omega)).trans (hset.mono (by omega) (by omega))
  have hback : sub64 u.origin 0xb8000 = s.origin + 160 - 0xb8000 := by
    rw [hall.origin]
    exact sub64_eq (a := s.origin + 160) (by omega) (by omega)
  have hscrEnd : sub64 u.scrEnd (sub64 u.origin 0xb8000) = 0xb8000 + 4000 := by
    rw [hback, hall.same]
    show sub64 (s.scrEnd + 160) _ = _
    rw [sub64_eq (by omega) (by omega)]
    omega
  have hpos : sub64 u.pos (sub64 u.origin 0xb8000) = 0xb8000 + 2 * (s.y * 80 + s.x) := by
    rw [hback, hall.same]
    show sub64 (s.pos + 160) _ = _
    rw [sub64_eq (by omega) (by omega)]
    omega
  show Paints s { u with
    scrEnd := sub64 u.scrEnd (sub64 u.origin 0xb8000)
    pos := sub64 u.pos (sub64 u.origin 0xb8000)
    origin := 0xb8000 } _
  rw [hscrEnd, hpos]
  obtain ⟨hx, hy, htop', hbottom', hsavedX, hsavedY⟩ := hall.frame
  refine ⟨⟨le_rfl, rfl, ?_, ?_, ?_, ?_, ?_, ?_, ?_, ?_⟩, hx, hy, htop', hbottom', hsavedX, hsavedY,
    ?_, ?_⟩
  · show 0xb8000 + 4000 ≤ 0xc0000
    decide
  · exact hx.trans_le hs.x_le
  · exact hy.trans_lt hs.y_lt
  · exact (htop'.trans_lt hs.top_lt).trans_eq hbottom'.symm
  · exact hbottom'.trans_le hs.bottom_le
  · rw [hx, hy]
    rfl
  · exact hsavedX.trans_le hs.savedX_le
  · exact hsavedY.trans_lt hs.savedY_lt
  · intro k hk
    show u.peek (0xb8000 + 2 * k) = _
    rw [shiftUp_screen htop hbottom hk]
    split
    · rw [hset.peek (.inl (by omega)), Vga.peek, hmem, Bytes.load_copy_inside (by omega)]
      rfl
    · rw [show 0xb8000 + 2 * k = 0xb8000 + 3840 + 2 * (k - 1920) by omega]
      exact hblank _ (by omega)
  · intro a ha
    rcases hall.stores a ha with hold | hnew
    · exact .inl hold
    · right
      show 0xb8000 ≤ a ∧ a + 2 ≤ 0xc0000
      omega

theorem Valid.scrup (hs : s.Valid) : Paints s s.scrup (shiftUp s.top s.bottom s.cell) := by
  by_cases hscreen : s.top = 0 ∧ s.bottom = 25
  · by_cases hroom : s.scrEnd + 160 ≤ 0xc0000
    · exact hs.scrup_moves hscreen.1 hscreen.2 hroom
    · exact hs.scrup_wraps hscreen.1 hscreen.2 (by omega)
  · exact (hs.scrup_region hscreen).1

theorem Valid.scrdown (hs : s.Valid) :
    Paints s s.scrdown (shiftDown s.top s.bottom s.cell) ∧ s.scrdown.origin = s.origin := by
  have hb := hs.bounds
  have hstores := memcpywBackward_stores (s.origin + 2 * ((s.top + 1) * 80))
    (s.origin + 2 * (s.top * 80)) ((s.bottom - s.top - 1) * 80) s
  rw [Vga.scrdown, hs.count, hs.row (by omega), hs.row (by omega)]
  refine hs.scroll hstores (memcpywBackward_mem (by omega)) (by omega) hstores.frame.2.2.1
    (by omega)
    fun k hk => ?_
  unfold shiftDown
  split
  · rw [if_pos (by omega), if_neg (by omega)]
  · split
    · rw [if_pos (by omega), if_pos (by omega)]
      exact congrArg s.cell (by omega)
    · rw [if_neg (by omega)]

def eraseCells (a b : Nat) (f : Nat → Nat) (k : Nat) : Nat := if a ≤ k ∧ k < b then blank else f k

theorem Valid.erase (hs : s.Valid) (ha : a = s.origin + 2 * p) (hn : p + n = q) (hq : q ≤ 2000) :
    Paints s (Vga.memsetw a blank n s) (eraseCells p q s.cell) := by
  subst hn
  exact hs.memsetw ha hq

def index (s : Vga) : Nat := s.y * 80 + s.x

theorem Valid.paints_self (hs : s.Valid) : Paints s s s.cell :=
  ⟨hs, rfl, rfl, rfl, rfl, rfl, rfl, fun _ _ => rfl, fun _ => .inl⟩

def eraseDisplay (i : Nat) (f : Nat → Nat) : Erase → Nat → Nat
  | .after => eraseCells i 2000 f
  | .before => eraseCells 0 i f
  | .all => eraseCells 0 2000 f
  | .none => f

theorem Valid.csiJ (hs : s.Valid) (vpar : Nat) :
    Paints s (s.csiJ vpar) (eraseDisplay s.index s.cell (Console.erase vpar)) := by
  have hb := hs.bounds
  have hpos : s.pos = s.origin + 2 * s.index := hs.pos_eq
  rw [Vga.csiJ]
  cases Console.erase vpar with
  | after =>
    refine hs.erase hpos ?_ (Nat.le_refl 2000)
    rw [sub64_eq (by omega) (by omega)]
    omega
  | before =>
    refine hs.erase (p := 0) rfl ?_ (show s.index ≤ 2000 by omega)
    rw [sub64_eq (by omega) (by omega)]
    omega
  | all => exact hs.erase (p := 0) (n := 2000) rfl rfl (Nat.le_refl 2000)
  | none => exact hs.paints_self

def eraseLine (x y : Nat) (f : Nat → Nat) : Erase → Nat → Nat
  | .after => eraseCells (y * 80 + x) ((y + 1) * 80) f
  | .before => eraseCells (y * 80) (y * 80 + x) f
  | .all => eraseCells (y * 80) ((y + 1) * 80) f
  | .none => f

theorem Valid.csiK (hs : s.Valid) (vpar : Nat) :
    Paints s (s.csiK vpar) (eraseLine s.x s.y s.cell (Console.erase vpar)) := by
  have hb := hs.bounds
  have hline : sub64 s.pos (2 * s.x) = s.origin + 2 * (s.y * 80) := by
    rw [sub64_eq (by omega) (by omega)]
    omega
  rw [Vga.csiK]
  cases Console.erase vpar with
  | after =>
    show Paints s (if 80 ≤ s.x then s else Vga.memsetw s.pos blank (sub64 80 s.x) s) _
    split
    · refine hs.paints_self.congr fun k _ => ?_
      show s.cell k = if s.y * 80 + s.x ≤ k ∧ k < (s.y + 1) * 80 then blank else s.cell k
      rw [if_neg (by omega)]
    · rw [sub64_eq (a := 80) (by omega) (by omega)]
      exact hs.erase (p := s.y * 80 + s.x) (q := (s.y + 1) * 80) hs.pos_eq (by omega) (by omega)
  | before =>
    refine hs.erase (p := s.y * 80) (q := s.y * 80 + s.x) hline ?_ (by omega)
    show s.y * 80 + (if s.x < 80 then s.x else 80) = s.y * 80 + s.x
    split
    · rfl
    · omega
  | all =>
    exact hs.erase (p := s.y * 80) (q := (s.y + 1) * 80) (n := 80) hline (by omega) (by omega)
  | none => exact hs.paints_self

def openCell (p e : Nat) (f : Nat → Nat) (k : Nat) : Nat :=
  if p ≤ k ∧ k < e then if k = p then blank else f (k - 1) else f k

def closeCell (p e : Nat) (f : Nat → Nat) (k : Nat) : Nat :=
  if p ≤ k ∧ k < e then if k + 1 < e then f (k + 1) else blank else f k

theorem insertLoop_stores (n p old : Nat) (s : Vga) :
    Stores p (p + 2 * n) s (insertLoop n p old s) := by
  induction n generalizing p old s with
  | zero => exact .refl _ _ s
  | succ n ih =>
    exact (Stores.poke s le_rfl (by omega) _).trans ((ih (p + 2) _ _).mono (by omega) (by omega))

theorem peek_insertLoop {old : Nat} (hold : old < 2 ^ 16) (hk : k < n) :
    (insertLoop n p old s).peek (p + 2 * k) =
      if k = 0 then old else s.peek (p + 2 * (k - 1)) := by
  induction n generalizing p old s k with
  | zero => omega
  | succ n ih =>
    rw [insertLoop]
    cases k with
    | zero =>
      rw [if_pos rfl, (insertLoop_stores n (p + 2) _ _).peek (.inl (by omega)), Nat.mul_zero,
        Nat.add_zero, peek_poke_self, Nat.mod_eq_of_lt hold]
    | succ k =>
      rw [if_neg (by omega), show p + 2 * (k + 1) = p + 2 + 2 * k by omega,
        ih (s.peek_lt p) (by omega)]
      cases k with
      | zero => rfl
      | succ k =>
        rw [if_neg (by omega), peek_poke_of_ne _ _ (.inr (by omega))]
        exact congrArg s.peek (by omega)

theorem Valid.insertChar (hs : s.Valid) :
    Paints s s.insertChar (openCell s.index ((s.y + 1) * 80) s.cell) := by
  have hb := hs.bounds
  have hpos : s.pos = s.origin + 2 * s.index := hs.pos_eq
  rw [Vga.insertChar, u32_eq (by omega)]
  have hstores := insertLoop_stores (80 - s.x) s.pos blank s
  rw [show s.pos + 2 * (80 - s.x) = s.origin + 2 * ((s.y + 1) * 80) by omega] at hstores
  rw [hpos] at hstores ⊢
  refine hs.paints hstores (by omega) fun k hk => ?_
  rw [openCell]
  split
  · next hin =>
    rw [show s.origin + 2 * k = s.origin + 2 * s.index + 2 * (k - s.index) by omega,
      peek_insertLoop (by decide) (show k - s.index < 80 - s.x by omega)]
    split
    · rw [if_pos (by omega)]
    · rw [if_neg (by omega)]
      exact congrArg s.peek (by omega)
  · next hout => exact hstores.peek (by omega)

theorem deleteLoop_stores (n p : Nat) (s : Vga) :
    Stores p (p + 2 * (n + 1)) s (deleteLoop n p s) := by
  induction n generalizing p s with
  | zero => exact .poke s le_rfl (by omega) _
  | succ n ih =>
    exact (Stores.poke s le_rfl (by omega) _).trans ((ih (p + 2) _).mono (by omega) (by omega))

theorem peek_deleteLoop (hk : k ≤ n) :
    (deleteLoop n p s).peek (p + 2 * k) = if k < n then s.peek (p + 2 * (k + 1)) else blank := by
  induction n generalizing p s k with
  | zero =>
    obtain rfl : k = 0 := by omega
    exact peek_poke_self s p blank
  | succ n ih =>
    rw [deleteLoop]
    cases k with
    | zero =>
      rw [if_pos (by omega), (deleteLoop_stores n (p + 2) _).peek (.inl (by omega))]
      show (s.poke p (s.peek (p + 2))).peek p = s.peek (p + 2)
      rw [peek_poke_self, Nat.mod_eq_of_lt (s.peek_lt _)]
    | succ k =>
      rw [show p + 2 * (k + 1) = p + 2 + 2 * k by omega, ih (by omega)]
      split
      · rw [if_pos (by omega), peek_poke_of_ne _ _ (.inr (by omega))]
        exact congrArg s.peek (by omega)
      · rw [if_neg (by omega)]

theorem Valid.deleteChar (hs : s.Valid) :
    Paints s s.deleteChar (closeCell s.index ((s.y + 1) * 80) s.cell) := by
  have hb := hs.bounds
  have hpos : s.pos = s.origin + 2 * s.index := hs.pos_eq
  rw [Vga.deleteChar, u32_eq (by omega)]
  split
  · next hx =>
    have hx : 80 ≤ s.x := hx
    refine hs.paints_self.congr fun k _ => ?_
    rw [closeCell, if_neg (by omega)]
  rename_i hx
  have hx : ¬ 80 ≤ s.x := hx
  have hstores := deleteLoop_stores (80 - 1 - s.x) s.pos s
  rw [show s.pos + 2 * (80 - 1 - s.x + 1) = s.origin + 2 * ((s.y + 1) * 80) by omega] at hstores
  rw [hpos] at hstores ⊢
  refine hs.paints hstores (by omega) fun k hk => ?_
  rw [closeCell]
  split
  · next hin =>
    rw [show s.origin + 2 * k = s.origin + 2 * s.index + 2 * (k - s.index) by omega,
      peek_deleteLoop (show k - s.index ≤ 80 - 1 - s.x by omega)]
    split
    · rw [if_pos (by omega)]
      exact congrArg s.peek (by omega)
    · rw [if_neg (by omega)]
  · next hout => exact hstores.peek (by omega)

theorem Valid.whole_region (hs : s.Valid) : Valid { s with top := s.y, bottom := lines } :=
  { hs with top_lt := hs.y_lt, bottom_le := le_rfl }

theorem Paints.restore (hs : s.Valid) (h : Paints { s with top := s.y, bottom := lines } s' f) :
    Paints s { s' with top := s.top, bottom := s.bottom } f where
  valid := { h.valid with top_lt := hs.top_lt, bottom_le := hs.bottom_le }
  x := h.x
  y := h.y
  top := rfl
  bottom := rfl
  savedX := h.savedX
  savedY := h.savedY
  cells := h.cells
  stores := h.stores

theorem Valid.insertLine (hs : s.Valid) : Paints s s.insertLine (shiftDown s.y 25 s.cell) :=
  Paints.restore hs hs.whole_region.scrdown.1

theorem Valid.deleteLine (hs : s.Valid) : Paints s s.deleteLine (shiftUp s.y 25 s.cell) :=
  Paints.restore hs hs.whole_region.scrup

end Vga

end Linux001.Console
