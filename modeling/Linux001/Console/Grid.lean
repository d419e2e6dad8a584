import Linux001.Console.Drawing

/-! A plain screen of 25 lines with 80 cells, and the proof that the screen in video memory shows
one: whatever is written, wherever the origin is, and without a store outside video memory. -/

namespace Linux001.Console

open Function ProofKit

/-! ### The plain screen -/

structure Grid where
  (x y top bottom savedX savedY : Nat)
  cell : Nat → Nat

namespace Grid

def index (g : Grid) : Nat := g.y * 80 + g.x

def draw (g : Grid) (f : (Nat → Nat) → Nat → Nat) : Grid := { g with cell := f g.cell }

def scrup (g : Grid) : Grid := g.draw (Vga.shiftUp g.top g.bottom)
def scrdown (g : Grid) : Grid := g.draw (Vga.shiftDown g.top g.bottom)

def lf (g : Grid) : Grid := if g.y + 1 < g.bottom then { g with y := g.y + 1 } else g.scrup
def ri (g : Grid) : Grid := if g.top < g.y then { g with y := g.y - 1 } else g.scrdown
def cr (g : Grid) : Grid := { g with x := 0 }

def put (w : Nat) (g : Grid) : Grid := g.draw fun f => update f g.index w

def backspace (g : Grid) : Grid := if g.x ≠ 0 then { g with x := g.x - 1 } else g
def del (g : Grid) : Grid := if g.x ≠ 0 then g.backspace.put blank else g

def wrap (g : Grid) : Grid := lf { g with x := g.x - 80 }

def print (w : Nat) (g : Grid) : Grid :=
  let g := if 80 ≤ g.x then g.wrap else g
  { g.put (w % 2 ^ 16) with x := g.x + 1 }

def tab (g : Grid) : Grid :=
  let g := { g with x := g.x + (8 - g.x % 8) }
  if 80 < g.x then g.wrap else g

def gotoxy (newX newY : Nat) (g : Grid) : Grid :=
  if 80 ≤ u32 newX ∨ 25 ≤ u32 newY then g else { g with x := u32 newX, y := u32 newY }

def saveCur (g : Grid) : Grid := { g with savedX := g.x, savedY := g.y }
def restoreCur (g : Grid) : Grid := { g with x := g.savedX, y := g.savedY }
def setRegion (top bottom : Nat) (g : Grid) : Grid := { g with top, bottom }

def csiJ (vpar : Nat) (g : Grid) : Grid :=
  g.draw fun f => Vga.eraseDisplay g.index f (erase vpar)

def csiK (vpar : Nat) (g : Grid) : Grid :=
  g.draw fun f => Vga.eraseLine g.x g.y f (erase vpar)

def insertChar (g : Grid) : Grid := g.draw (Vga.openCell g.index ((g.y + 1) * 80))
def deleteChar (g : Grid) : Grid := g.draw (Vga.closeCell g.index ((g.y + 1) * 80))
def insertLine (g : Grid) : Grid := g.draw (Vga.shiftDown g.y 25)
def deleteLine (g : Grid) : Grid := g.draw (Vga.shiftUp g.y 25)

def csiAt (nr : Nat) (g : Grid) : Grid := insertChar^[Vga.repeats nr columns] g
def csiL (nr : Nat) (g : Grid) : Grid := insertLine^[Vga.repeats nr lines] g
def csiP (nr : Nat) (g : Grid) : Grid := deleteChar^[Vga.repeats nr columns] g
def csiM (nr : Nat) (g : Grid) : Grid := deleteLine^[Vga.repeats nr lines] g

end Grid

instance : Screen Grid where
  x := Grid.x
  y := Grid.y
  print := Grid.print
  lf := Grid.lf
  ri := Grid.ri
  cr := Grid.cr
  del := Grid.del
  backspace := Grid.backspace
  tab := Grid.tab
  saveCur := Grid.saveCur
  restoreCur := Grid.restoreCur
  gotoxy := Grid.gotoxy
  setRegion := Grid.setRegion
  csiJ := Grid.csiJ
  csiK := Grid.csiK
  csiAt := Grid.csiAt
  csiL := Grid.csiL
  csiP := Grid.csiP
  csiM := Grid.csiM

/-! ### Changes of the cells look only at cells -/

namespace Vga

variable {f g : Nat → Nat} {top bottom p e k : Nat}

section
variable (h : ∀ k < 2000, f k = g k)
include h

theorem shiftUp_congr (hb : bottom ≤ 25) (hk : k < 2000) :
    shiftUp top bottom f k = shiftUp top bottom g k := by
  unfold shiftUp
  split
  · split
    · exact h _ (show k + 80 < 2000 by omega)
    · rfl
  · exact h k hk

theorem shiftDown_congr (hk : k < 2000) :
    shiftDown top bottom f k = shiftDown top bottom g k := by
  unfold shiftDown
  split
  · split
    · exact h _ (by omega)
    · rfl
  · exact h k hk

theorem eraseCells_congr (hk : k < 2000) :
    eraseCells p e f k = eraseCells p e g k := by
  unfold eraseCells
  split
  · rfl
  · exact h k hk

theorem eraseDisplay_congr (hk : k < 2000) (m : Erase) :
    eraseDisplay p f m k = eraseDisplay p g m k := by
  cases m with
  | none => exact h k hk
  | _ => exact eraseCells_congr h hk

theorem eraseLine_congr (hk : k < 2000) (m : Erase) :
    eraseLine p e f m k = eraseLine p e g m k := by
  cases m with
  | none => exact h k hk
  | _ => exact eraseCells_congr h hk

theorem openCell_congr (hk : k < 2000) :
    openCell p e f k = openCell p e g k := by
  unfold openCell
  split
  · split
    · rfl
    · exact h _ (by omega)
  · exact h k hk

theorem closeCell_congr (he : e ≤ 2000) (hk : k < 2000) :
    closeCell p e f k = closeCell p e g k := by
  unfold closeCell
  split
  · split
    · exact h _ (by omega)
    · rfl
  · exact h k hk

end

end Vga

/-! ### Video memory shows the plain screen -/

/-- The screen is valid and shows `g`, with no store outside since `old`. -/
structure Shows (old : List Nat) (s : Vga) (g : Grid) : Prop where
  valid : s.Valid
  stores : ∀ a ∈ s.stores, a ∈ old ∨ InScreen a
  x : s.x = g.x
  y : s.y = g.y
  top : s.top = g.top
  bottom : s.bottom = g.bottom
  savedX : s.savedX = g.savedX
  savedY : s.savedY = g.savedY
  cells : ∀ k < 2000, s.cell k = g.cell k

namespace Shows

variable {old : List Nat} {s s' : Vga} {g : Grid} {f : Nat → Nat}

section
variable (h : Shows old s g) {F : (Nat → Nat) → Nat → Nat}
include h

theorem draw (hp : s.Paints s' f)
    (hf : ∀ k < 2000, f k = F g.cell k) : Shows old s' (g.draw F) where
  valid := hp.valid
  stores a ha := (hp.stores a ha).elim (h.stores a) .inr
  x := hp.x.trans h.x
  y := hp.y.trans h.y
  top := hp.top.trans h.top
  bottom := hp.bottom.trans h.bottom
  savedX := hp.savedX.trans h.savedX
  savedY := hp.savedY.trans h.savedY
  cells k hk := (hp.cells k hk).trans (hf k hk)

theorem move {x y pos gx gy : Nat} (hx : x ≤ 80) (hy : y < 25)
    (hpos : pos = s.origin + 2 * (y * 80 + x)) (hgx : x = gx) (hgy : y = gy) :
    Shows old { s with x, y, pos } { g with x := gx, y := gy } :=
  { h with
    valid := { h.valid with x_le := hx, y_lt := hy, pos_eq := hpos }
    x := hgx
    y := hgy
    cells := h.cells }

theorem scrup : Shows old s.scrup g.scrup := by
  refine h.draw h.valid.scrup fun k hk => ?_
  rw [h.top, h.bottom]
  exact Vga.shiftUp_congr h.cells (h.bottom ▸ h.valid.bottom_le) hk

theorem scrdown : Shows old s.scrdown g.scrdown := by
  refine h.draw h.valid.scrdown.1 fun k hk => ?_
  rw [h.top, h.bottom]
  exact Vga.shiftDown_congr h.cells hk

theorem lf : Shows old s.lf g.lf := by
  have hb := h.valid.bounds
  have hy := h.y
  have hbottom := h.bottom
  rw [Vga.lf, Grid.lf, Vga.u64_eq (n := s.y + 1) (by omega)]
  split
  · rw [if_pos (by omega)]
    refine h.move h.valid.x_le (y := s.y + 1) (by omega) ?_ h.x (by omega)
    show u64 (s.pos + 160) = _
    rw [Vga.u64_eq (by omega)]
    omega
  · rw [if_neg (by omega)]
    exact h.scrup

theorem ri : Shows old s.ri g.ri := by
  have hb := h.valid.bounds
  have hy := h.y
  have htop := h.top
  rw [Vga.ri, Grid.ri]
  split
  · rw [if_pos (by omega), Vga.sub64_eq (a := s.y) (by omega) (by omega)]
    refine h.move h.valid.x_le (y := s.y - 1) (by omega) ?_ h.x (by omega)
    show sub64 s.pos 160 = _
    rw [Vga.sub64_eq (by omega) (by omega)]
    omega
  · rw [if_neg (by omega)]
    exact h.scrdown

theorem cr : Shows old s.cr g.cr := by
  have hb := h.valid.bounds
  refine h.move (Nat.zero_le 80) h.valid.y_lt ?_ rfl h.y
  rw [Vga.sub64_eq (by omega) (by omega)]
  omega

theorem back (hx : s.x ≠ 0) :
    Shows old { s with x := sub64 s.x 1, pos := sub64 s.pos 2 } { g with x := g.x - 1 } := by
  have hb := h.valid.bounds
  have hgx := h.x
  rw [Vga.sub64_eq (a := s.x) (by omega) (by omega)]
  refine h.move (x := s.x - 1) (by omega) h.valid.y_lt ?_ (by omega) h.y
  rw [Vga.sub64_eq (by omega) (by omega)]
  omega

theorem backspace : Shows old s.backspace g.backspace := by
  rw [Vga.backspace, Grid.backspace]
  split
  · next hx =>
    rw [if_pos (h.x ▸ hx)]
    exact h.back hx
  · next hx =>
    rw [if_neg (h.x ▸ hx)]
    exact h

theorem put (hx : g.x < 80) (w : Nat) :
    Shows old (s.poke s.pos w) (g.put (w % 2 ^ 16)) := by
  have hb := h.valid.bounds
  have hgx := h.x
  have hindex : s.y * 80 + s.x = g.index := by
    rw [h.x, h.y]
    rfl
  have hpos : s.pos = s.origin + 2 * g.index := by omega
  have hstores : Vga.Stores (s.origin + 2 * g.index) (s.origin + 2 * (g.index + 1)) s
      (s.poke s.pos w) := .poke s (by omega) (by omega) w
  refine h.draw (h.valid.paints hstores (by omega) fun k _ => rfl) fun k hk => ?_
  by_cases hk' : k = g.index
  · rw [hk', update_self, ← hpos, Vga.peek_poke_self]
  · rw [update_of_ne hk', hstores.peek (by omega)]
    exact h.cells k hk

theorem del : Shows old s.del g.del := by
  have hb := h.valid.bounds
  have hgx := h.x
  rw [Vga.del, Grid.del, Grid.backspace]
  split
  · next hx =>
    rw [if_pos (by omega), if_pos (by omega)]
    exact (h.back hx).put (show g.x - 1 < 80 by omega) blank
  · rw [if_neg (by omega)]
    exact h

theorem wrap {x pos gx : Nat} (hlo : 80 ≤ x) (hhi : x ≤ 160)
    (hpos : pos = s.origin + 2 * (s.y * 80 + x)) (hgx : x = gx) :
    Shows old (Vga.wrap { s with x, pos }) (Grid.wrap { g with x := gx }) := by
  have hb := h.valid.bounds
  have hgx' : sub64 x 80 = gx - 80 := by
    rw [Vga.sub64_eq (by omega) (by omega), hgx]
  refine Shows.lf (h.move (x := sub64 x 80) ?_ h.valid.y_lt ?_ hgx' h.y)
  · omega
  · rw [Vga.sub64_eq hlo (by omega)]
    show sub64 pos 160 = s.origin + 2 * (s.y * 80 + (x - 80))
    rw [Vga.sub64_eq (by omega) (by omega)]
    omega

end

theorem wrap_x (g : Grid) : g.wrap.x = g.x - 80 := by
  unfold Grid.wrap Grid.lf
  split
  · rfl
  · rfl

section
variable (h : Shows old s g)
include h

theorem advance (hx : g.x < 80) (w : Nat) :
    Shows old { s.poke s.pos w with pos := u64 (s.pos + 2), x := u64 (s.x + 1) }
      { g.put (w % 2 ^ 16) with x := g.x + 1 } := by
  have hb := h.valid.bounds
  have hgx := h.x
  refine (h.put hx w).move ?_ h.valid.y_lt ?_ ?_ h.y
  · rw [Vga.u64_eq (by omega)]
    omega
  · show u64 (s.pos + 2) = s.origin + 2 * (s.y * 80 + u64 (s.x + 1))
    rw [Vga.u64_eq (by omega), Vga.u64_eq (by omega)]
    omega
  · rw [Vga.u64_eq (by omega)]
    omega

theorem print (w : Nat) : Shows old (s.print w) (g.print w) := by
  have hb := h.valid.bounds
  have hgx := h.x
  rw [Vga.print, Grid.print]
  by_cases hx : 80 ≤ s.x
  · rw [if_pos hx, if_pos (by omega)]
    refine (h.wrap hx (by omega) h.valid.pos_eq hgx).advance ?_ w
    rw [wrap_x]
    show g.x - 80 < 80
    omega
  · rw [if_neg hx, if_neg (by omega)]
    exact h.advance (by omega) w

theorem tab : Shows old s.tab g.tab := by
  have hb := h.valid.bounds
  have hgx := h.x
  have hx : u64 (s.x + (8 - s.x % 8)) = s.x + (8 - s.x % 8) := Vga.u64_eq (by omega)
  have hpos : u64 (s.pos + 2 * (8 - s.x % 8)) =
      s.origin + 2 * (s.y * 80 + (s.x + (8 - s.x % 8))) := by
    rw [Vga.u64_eq (by omega)]
    omega
  rw [Vga.tab, hx, hpos, Grid.tab]
  by_cases hover : 80 < s.x + (8 - s.x % 8)
  · rw [if_pos hover, if_pos (show 80 < g.x + (8 - g.x % 8) by omega)]
    exact h.wrap (by omega) (by omega) rfl (by omega)
  · rw [if_neg hover, if_neg (show ¬ 80 < g.x + (8 - g.x % 8) by omega)]
    exact h.move (by omega) h.valid.y_lt rfl (by omega) h.y

theorem gotoxy (newX newY : Nat) :
    Shows old (s.gotoxy newX newY) (g.gotoxy newX newY) := by
  have hb := h.valid.bounds
  rw [Vga.gotoxy, Grid.gotoxy]
  split
  · exact h
  · next hin =>
    have hin : ¬ (80 ≤ u32 newX ∨ 25 ≤ u32 newY) := hin
    refine h.move (by omega) (by omega) ?_ rfl rfl
    exact Vga.u64_eq (show s.origin + 2 * (u32 newY * 80 + u32 newX) < 2 ^ 64 by omega)

theorem saveCur : Shows old s.saveCur g.saveCur :=
  { h with
    valid := { h.valid with savedX_le := h.valid.x_le, savedY_lt := h.valid.y_lt }
    savedX := h.x
    savedY := h.y
    cells := h.cells }

theorem restoreCur : Shows old s.restoreCur g.restoreCur := by
  have hb := h.valid.bounds
  refine h.move h.valid.savedX_le h.valid.savedY_lt ?_ h.savedX h.savedY
  exact Vga.u64_eq (show s.origin + 2 * (s.savedY * 80 + s.savedX) < 2 ^ 64 by omega)

theorem setRegion {top bottom : Nat} (htop : top < bottom)
    (hbottom : bottom ≤ 25) : Shows old (s.setRegion top bottom) (g.setRegion top bottom) :=
  { h with
    valid := { h.valid with top_lt := htop, bottom_le := hbottom }
    top := rfl
    bottom := rfl
    cells := h.cells }

theorem index : s.index = g.index := by
  rw [Vga.index, h.x, h.y]
  rfl

theorem csiJ (vpar : Nat) : Shows old (s.csiJ vpar) (g.csiJ vpar) := by
  refine h.draw (h.valid.csiJ vpar) fun k hk => ?_
  rw [h.index]
  exact Vga.eraseDisplay_congr h.cells hk _

theorem csiK (vpar : Nat) : Shows old (s.csiK vpar) (g.csiK vpar) := by
  refine h.draw (h.valid.csiK vpar) fun k hk => ?_
  rw [h.x, h.y]
  exact Vga.eraseLine_congr h.cells hk _

theorem insertChar : Shows old s.insertChar g.insertChar := by
  refine h.draw h.valid.insertChar fun k hk => ?_
  rw [h.index, h.y]
  exact Vga.openCell_congr h.cells hk

theorem deleteChar : Shows old s.deleteChar g.deleteChar := by
  have hb := h.valid.bounds
  have hy := h.y
  refine h.draw h.valid.deleteChar fun k hk => ?_
  rw [h.index, h.y]
  exact Vga.closeCell_congr h.cells (by omega) hk

theorem insertLine : Shows old s.insertLine g.insertLine := by
  refine h.draw h.valid.insertLine fun k hk => ?_
  rw [h.y]
  exact Vga.shiftDown_congr h.cells hk

theorem deleteLine : Shows old s.deleteLine g.deleteLine := by
  refine h.draw h.valid.deleteLine fun k hk => ?_
  rw [h.y]
  exact Vga.shiftUp_congr h.cells le_rfl hk

end

theorem iterate {op : Vga → Vga} {op' : Grid → Grid}
    (hop : ∀ s g, Shows old s g → Shows old (op s) (op' g)) (n : Nat) (h : Shows old s g) :
    Shows old (op^[n] s) (op'^[n] g) := by
  induction n generalizing s g with
  | zero => exact h
  | succ n ih =>
    exact ih (hop s g h)

end Shows

/-! ### The state machine -/

/-- A relation between two kinds of screen that all the operations keep. -/
structure Simulates {σ τ : Type*} [Screen σ] [Screen τ] (R : σ → τ → Prop) : Prop where
  x : ∀ s t, R s t → Screen.x s = Screen.x t
  y : ∀ s t, R s t → Screen.y s = Screen.y t
  print : ∀ w s t, R s t → R (Screen.print w s) (Screen.print w t)
  lf : ∀ s t, R s t → R (Screen.lf s) (Screen.lf t)
  ri : ∀ s t, R s t → R (Screen.ri s) (Screen.ri t)
  cr : ∀ s t, R s t → R (Screen.cr s) (Screen.cr t)
  del : ∀ s t, R s t → R (Screen.del s) (Screen.del t)
  backspace : ∀ s t, R s t → R (Screen.backspace s) (Screen.backspace t)
  tab : ∀ s t, R s t → R (Screen.tab s) (Screen.tab t)
  saveCur : ∀ s t, R s t → R (Screen.saveCur s) (Screen.saveCur t)
  restoreCur : ∀ s t, R s t → R (Screen.restoreCur s) (Screen.restoreCur t)
  gotoxy : ∀ x y s t, R s t → R (Screen.gotoxy x y s) (Screen.gotoxy x y t)
  setRegion : ∀ top bottom s t, top < bottom → bottom ≤ lines → R s t →
    R (Screen.setRegion top bottom s) (Screen.setRegion top bottom t)
  csiJ : ∀ n s t, R s t → R (Screen.csiJ n s) (Screen.csiJ n t)
  csiK : ∀ n s t, R s t → R (Screen.csiK n s) (Screen.csiK n t)
  csiAt : ∀ n s t, R s t → R (Screen.csiAt n s) (Screen.csiAt n t)
  csiL : ∀ n s t, R s t → R (Screen.csiL n s) (Screen.csiL n t)
  csiP : ∀ n s t, R s t → R (Screen.csiP n s) (Screen.csiP n t)
  csiM : ∀ n s t, R s t → R (Screen.csiM n s) (Screen.csiM n t)

theorem shows_simulates (old : List Nat) : Simulates (Shows old) where
  x _ _ h := h.x
  y _ _ h := h.y
  print w _ _ h := h.print w
  lf _ _ h := h.lf
  ri _ _ h := h.ri
  cr _ _ h := h.cr
  del _ _ h := h.del
  backspace _ _ h := h.backspace
  tab _ _ h := h.tab
  saveCur _ _ h := h.saveCur
  restoreCur _ _ h := h.restoreCur
  gotoxy x y _ _ h := h.gotoxy x y
  setRegion _ _ _ _ htop hbottom h := h.setRegion htop hbottom
  csiJ n _ _ h := h.csiJ n
  csiK n _ _ h := h.csiK n
  csiAt _ _ _ h := .iterate (fun _ _ h => h.insertChar) _ h
  csiL _ _ _ h := .iterate (fun _ _ h => h.insertLine) _ h
  csiP _ _ _ h := .iterate (fun _ _ h => h.deleteChar) _ h
  csiM _ _ _ h := .iterate (fun _ _ h => h.deleteLine) _ h

namespace Vt

variable {σ τ : Type*} {R : σ → τ → Prop} {v : Vt σ} {w : Vt τ} {n : Nat}

/-- The state machines are in the same state, over screens that `R` relates. -/
structure Related (R : σ → τ → Prop) (v : Vt σ) (w : Vt τ) : Prop where
  screen : R v.screen w.screen
  state : v.state = w.state
  npar : v.npar = w.npar
  par : v.par = w.par
  ques : v.ques = w.ques
  attr : v.attr = w.attr

namespace Related

section
variable (h : Related R v w)
include h

theorem setState (n : Nat) :
    Related R { v with state := n } { w with state := n } :=
  { h with state := rfl }

theorem onScreen {f : σ → σ} {g : τ → τ} (hfg : R (f v.screen) (g w.screen)) :
    Related R (v.onScreen f) (w.onScreen g) :=
  { h with screen := hfg }

theorem onPar {f : Nat → σ → σ} {g : Nat → τ → τ} (hfg : ∀ n s t, R s t → R (f n s) (g n t)) :
    Related R (v.onScreen (f (v.par 0))) (w.onScreen (g (w.par 0))) := by
  refine h.onScreen ?_
  rw [h.par]
  exact hfg _ _ _ h.screen

theorem setPar (i n : Nat) : Related R (v.setPar i n) (w.setPar i n) :=
  { h with par := congrArg (fun par : Nat → Nat => update par i n) h.par }

theorem decPar (i : Nat) : Related R (v.decPar i) (w.decPar i) := by
  rw [Vt.decPar, Vt.decPar, h.par]
  split
  · exact h.setPar i _
  · exact h

theorem onePar : Related R v.onePar w.onePar := by
  rw [Vt.onePar, Vt.onePar, h.par]
  split
  · exact h.setPar 0 1
  · exact h

theorem csiM : Related R v.csiM w.csiM := by
  refine { h with attr := ?_ }
  show List.foldl (setAttr v.par) v.attr _ = List.foldl (setAttr w.par) w.attr _
  rw [h.par, h.attr, h.npar]

end

variable [Screen σ] [Screen τ] (hR : Simulates R)
include hR

section
variable (h : Related R v w)
include h

theorem gotoxy {x y x' y' : Nat} (hx : x = x') (hy : y = y') :
    Related R (v.gotoxy x y) (w.gotoxy x' y') := by
  subst hx hy
  exact h.onScreen (hR.gotoxy x y _ _ h.screen)

theorem x_eq : v.x = w.x := hR.x _ _ h.screen

theorem y_eq : v.y = w.y := hR.y _ _ h.screen

theorem ground (c : UInt8) (k : Ground) :
    Related R (v.ground c k) (w.ground c k) := by
  cases k with
  | print =>
    rw [Vt.ground, Vt.ground, h.attr]
    exact h.onScreen (hR.print _ _ _ h.screen)
  | escape => exact h.setState 1
  | lf => exact h.onScreen (hR.lf _ _ h.screen)
  | cr => exact h.onScreen (hR.cr _ _ h.screen)
  | del => exact h.onScreen (hR.del _ _ h.screen)
  | backspace => exact h.onScreen (hR.backspace _ _ h.screen)
  | tab => exact h.onScreen (hR.tab _ _ h.screen)
  | none => exact h

theorem escape (e : Escape) : Related R (v.escape e) (w.escape e) := by
  have h0 := h.setState 0
  cases e with
  | bracket => exact h.setState 2
  | nextLine => exact h0.gotoxy hR rfl (by rw [h0.y_eq hR])
  | ri => exact h0.onScreen (hR.ri _ _ h.screen)
  | lf => exact h0.onScreen (hR.lf _ _ h.screen)
  | respond => exact h0
  | other =>
    simp only [Vt.escape]
    rw [h0.x_eq hR]
    split
    · exact h0.onScreen (hR.saveCur _ _ h.screen)
    · split
      · exact h0.onScreen (hR.restoreCur _ _ h.screen)
      · exact h0

theorem region :
    Related R
      (if v.par 0 < v.par 1 ∧ v.par 1 ≤ lines then
        v.onScreen (Screen.setRegion (v.par 0) (v.par 1)) else v)
      (if w.par 0 < w.par 1 ∧ w.par 1 ≤ lines then
        w.onScreen (Screen.setRegion (w.par 0) (w.par 1)) else w) := by
  rw [h.par]
  split
  · next hin => exact h.onScreen (hR.setRegion _ _ _ _ hin.1 hin.2 h.screen)
  · exact h

theorem command (c : Csi) : Related R (v.command c) (w.command c) := by
  have h0 := h.setState 0
  have hdec := h0.decPar 0
  have hone := h0.onePar
  cases c with
  | G => exact hdec.gotoxy hR (by rw [hdec.par]) (hdec.y_eq hR)
  | A => exact hone.gotoxy hR (hone.x_eq hR) (by rw [hone.y_eq hR, hone.par])
  | B => exact hone.gotoxy hR (hone.x_eq hR) (by rw [hone.y_eq hR, hone.par])
  | C => exact hone.gotoxy hR (by rw [hone.x_eq hR, hone.par]) (hone.y_eq hR)
  | D => exact hone.gotoxy hR (by rw [hone.x_eq hR, hone.par]) (hone.y_eq hR)
  | E => exact hone.gotoxy hR rfl (by rw [hone.y_eq hR, hone.par])
  | F => exact hone.gotoxy hR rfl (by rw [hone.y_eq hR, hone.par])
  | d => exact hdec.gotoxy hR (hdec.x_eq hR) (by rw [hdec.par])
  | H =>
    have hdec2 := hdec.decPar 1
    exact hdec2.gotoxy hR (by rw [hdec2.par]) (by rw [hdec2.par])
  | J => exact h0.onPar hR.csiJ
  | K => exact h0.onPar hR.csiK
  | L => exact h0.onPar hR.csiL
  | M => exact h0.onPar hR.csiM
  | P => exact h0.onPar hR.csiP
  | «at» => exact h0.onPar hR.csiAt
  | m => exact h0.csiM
  | r =>
    have hlines : Related R
        (if (Vt.decPar { v with state := 0 } 0).par 1 = 0 then
          (Vt.decPar { v with state := 0 } 0).setPar 1 lines else Vt.decPar { v with state := 0 } 0)
        (if (Vt.decPar { w with state := 0 } 0).par 1 = 0 then
          (Vt.decPar { w with state := 0 } 0).setPar 1 lines
          else Vt.decPar { w with state := 0 } 0) := by
      rw [hdec.par]
      split
      · exact hdec.setPar 1 lines
      · exact hdec
    exact hlines.region hR
  | s => exact h0.onScreen (hR.saveCur _ _ h.screen)
  | u => exact h0.onScreen (hR.restoreCur _ _ h.screen)
  | none => exact h0

theorem parameter (c : UInt8) : Related R (v.parameter c) (w.parameter c) := by
  have hsame : (c = 0x3b ∧ v.npar < 15) = (c = 0x3b ∧ w.npar < 15) := by rw [h.npar]
  have hdigit : update v.par v.npar (u64 (10 * v.par v.npar + (c.toNat - 0x30))) =
      update w.par w.npar (u64 (10 * w.par w.npar + (c.toNat - 0x30))) := by
    rw [h.npar, h.par]
  rw [Vt.parameter, Vt.parameter]
  simp only [hsame]
  split
  · exact { h with npar := congrArg (· + 1) h.npar }
  · split
    · exact { h with par := hdigit }
    · exact h.command hR _

theorem bracket (c : UInt8) : Related R (v.bracket c) (w.bracket c) := by
  have hclear : Related R
      { v with
        par := fun i => if i < 16 then 0 else v.par i
        indexed := List.range 16 ++ v.indexed
        npar := 0
        state := 3
        ques := c = 0x3f }
      { w with
        par := fun i => if i < 16 then 0 else w.par i
        indexed := List.range 16 ++ w.indexed
        npar := 0
        state := 3
        ques := c = 0x3f } :=
    { h with
      state := rfl
      npar := rfl
      par := by rw [h.par]
      ques := rfl }
  simp only [Vt.bracket]
  split
  · exact hclear
  · exact hclear.parameter hR c

theorem write (erase c : UInt8) :
    Related R (v.write erase c) (w.write erase c) := by
  rw [Vt.write, Vt.write, h.state]
  split
  · exact h.ground hR c _
  · exact h.escape hR _
  · exact h.bracket hR c
  · exact h.parameter hR c
  · exact h.command hR _
  · exact h

theorem writeAll (input : List (UInt8 × UInt8)) :
    Related R (v.writeAll input) (w.writeAll input) := by
  induction input generalizing v w with
  | nil => exact h
  | cons e input ih => exact ih (h.write hR e.1 e.2)

end

end Related

/-! ### Indices of parameters -/

/-- The parser goes from `v` to `w` in the state `n`, and keeps its parameters. -/
def Parsed (v w : Vt σ) (n : Nat) : Prop :=
  w.state = n ∧ w.npar = v.npar ∧ w.indexed = v.indexed

theorem Parsed.decPar {w : Vt σ} (h : Parsed v w n) (i : Nat) :
    Parsed v (w.decPar i) n := by
  unfold Vt.decPar
  split
  · exact h
  · exact h

theorem Parsed.onePar {w : Vt σ} (h : Parsed v w n) : Parsed v w.onePar n := by
  unfold Vt.onePar
  split
  · exact h
  · exact h

theorem parsed_escape [Screen σ] (v : Vt σ) (e : Escape) :
    Parsed v (v.escape e) 0 ∨ Parsed v (v.escape e) 2 := by
  have h0 : Parsed v { v with state := 0 } 0 := ⟨rfl, rfl, rfl⟩
  cases e with
  | bracket => exact .inr ⟨rfl, rfl, rfl⟩
  | other =>
    left
    simp only [Vt.escape]
    split
    · exact h0
    · split
      · exact h0
      · exact h0
  | _ => exact .inl h0

theorem parsed_command [Screen σ] (v : Vt σ) (c : Csi) :
    v.command c = csiM { v with state := 0 } ∨ Parsed v (v.command c) 0 := by
  have h0 : Parsed v { v with state := 0 } 0 := ⟨rfl, rfl, rfl⟩
  have hdec := h0.decPar 0
  cases c with
  | m => exact .inl rfl
  | G | d => exact .inr hdec
  | A | B | C | D | E | F => exact .inr h0.onePar
  | H => exact .inr (hdec.decPar 1)
  | r =>
    right
    simp only [Vt.command]
    split
    · split
      · exact hdec
      · exact hdec
    · split
      · exact hdec
      · exact hdec
  | _ => exact .inr h0

structure Indexed (v : Vt σ) : Prop where
  npar : v.npar ≤ 15
  indexed : ∀ i ∈ v.indexed, i ≤ 15

namespace Indexed

theorem congr {v' : Vt σ} (h : Indexed v) (hnpar : v'.npar = v.npar)
    (hindexed : v'.indexed = v.indexed) : Indexed v' :=
  ⟨hnpar ▸ h.npar, hindexed ▸ h.indexed⟩

theorem csiM (h : Indexed v) : Indexed v.csiM := by
  refine ⟨h.npar, fun i hi => ?_⟩
  have hnpar := h.npar
  rcases List.mem_append.mp hi with hnew | hold
  · have := List.mem_range.mp hnew
    omega
  · exact h.indexed i hold

variable [Screen σ]

section
variable (h : Indexed v)
include h

theorem ground (c : UInt8) (k : Ground) : Indexed (v.ground c k) := by
  cases k with
  | _ => exact h.congr rfl rfl

theorem command (c : Csi) : Indexed (v.command c) := by
  rcases parsed_command v c with hm | hc
  · rw [hm]
    exact csiM (h.congr rfl rfl)
  · exact h.congr hc.2.1 hc.2.2

theorem parameter (c : UInt8) : Indexed (v.parameter c) := by
  unfold Vt.parameter
  split
  · next hsemi =>
    have hnpar : v.npar + 1 ≤ 15 := by omega
    exact ⟨hnpar, h.indexed⟩
  · split
    · refine ⟨h.npar, fun i hi => ?_⟩
      rcases List.mem_cons.mp hi with rfl | hold
      · exact h.npar
      · exact h.indexed i hold
    · exact h.command _

theorem bracket (c : UInt8) : Indexed (v.bracket c) := by
  have hclear : ∀ i ∈ List.range 16 ++ v.indexed, i ≤ 15 := by
    intro i hi
    rcases List.mem_append.mp hi with hnew | hold
    · have := List.mem_range.mp hnew
      omega
    · exact h.indexed i hold
  simp only [Vt.bracket]
  split
  · exact ⟨Nat.zero_le 15, hclear⟩
  · refine parameter ?_ c
    exact ⟨Nat.zero_le 15, hclear⟩

theorem write (erase c : UInt8) : Indexed (v.write erase c) := by
  unfold Vt.write
  split
  · exact h.ground c _
  · rcases parsed_escape v (Console.escape c) with he | he
    · exact h.congr he.2.1 he.2.2
    · exact h.congr he.2.1 he.2.2
  · exact h.bracket c
  · exact h.parameter c
  · exact h.command _
  · exact h

theorem writeAll (input : List (UInt8 × UInt8)) : Indexed (v.writeAll input) := by
  induction input generalizing v with
  | nil => exact h
  | cons e input ih => exact ih (h.write e.1 e.2)

end

end Indexed

end Vt

/-! ### Safety -/

def Vga.grid (s : Vga) : Grid where
  x := s.x
  y := s.y
  top := s.top
  bottom := s.bottom
  savedX := s.savedX
  savedY := s.savedY
  cell := s.cell

theorem Vga.Valid.shows {s : Vga} (h : s.Valid) : Shows s.stores s s.grid :=
  ⟨h, fun _ => .inl, rfl, rfl, rfl, rfl, rfl, rfl, fun _ _ => rfl⟩

def Vt.grid (v : Vt Vga) : Vt Grid := { v with screen := v.screen.grid }

theorem Vt.related_grid {v : Vt Vga} (h : v.screen.Valid) :
    Related (Shows v.screen.stores) v v.grid :=
  ⟨h.shows, rfl, rfl, rfl, rfl, rfl⟩

/-- Whatever is written, a console stays valid, and accesses are in bounds. -/
theorem valid_writeAll (v : Vt Vga) (hvalid : v.screen.Valid) (hnpar : v.npar ≤ 15)
    (hstores : v.screen.stores = []) (hindexed : v.indexed = []) (input : List (UInt8 × UInt8)) :
    (v.writeAll input).screen.Valid ∧
      (∀ a ∈ (v.writeAll input).screen.stores, screenStart ≤ a ∧ a + 2 ≤ screenEnd) ∧
      ∀ i ∈ (v.writeAll input).indexed, i ≤ 15 := by
  have hshows := ((Vt.related_grid hvalid).writeAll (shows_simulates _) input).screen
  have hindexed0 : v.Indexed := ⟨hnpar, by simp [hindexed]⟩
  refine ⟨hshows.valid, fun a ha => ?_, (hindexed0.writeAll input).indexed⟩
  rcases hshows.stores a ha with hold | hin
  · rw [hstores] at hold
    cases hold
  · exact hin

def bootConsole : Vt Vga where
  screen :=
    { mem := fun _ => 0
      origin := screenStart
      scrEnd := screenStart + 2 * lines * columns
      pos := screenStart
      x := 0
      y := 0
      top := 0
      bottom := lines
      savedX := 0
      savedY := 0
      stores := [] }
  state := 0
  npar := 0
  par := fun _ => 0
  ques := false
  attr := 0x07
  indexed := []

theorem bootConsole_valid : bootConsole.screen.Valid := by
  constructor <;> decide

/-- A letter is stored at the cursor. -/
theorem valid_writeAll_letter :
    (bootConsole.writeAll [(127, 65)]).screen.stores = [screenStart] ∧
      (bootConsole.writeAll [(127, 65)]).screen.Valid :=
  ⟨by decide, (valid_writeAll bootConsole bootConsole_valid (by decide) rfl rfl _).1⟩

/-! ### Refinement -/

structure SameScreen (s t : Vga) : Prop where
  x : s.x = t.x
  y : s.y = t.y
  top : s.top = t.top
  bottom : s.bottom = t.bottom
  savedX : s.savedX = t.savedX
  savedY : s.savedY = t.savedY
  cells : ∀ k < lines * columns, s.cell k = t.cell k

theorem sameScreen_of_shows {old old' : List Nat} {s t : Vga} {g : Grid} (hs : Shows old s g)
    (ht : Shows old' t g) : SameScreen s t where
  x := hs.x.trans ht.x.symm
  y := hs.y.trans ht.y.symm
  top := hs.top.trans ht.top.symm
  bottom := hs.bottom.trans ht.bottom.symm
  savedX := hs.savedX.trans ht.savedX.symm
  savedY := hs.savedY.trans ht.savedY.symm
  cells k hk := (hs.cells k hk).trans (ht.cells k hk).symm

theorem shows_of_sameScreen {s t : Vga} (ht : t.Valid) (h : SameScreen s t) :
    Shows t.stores t s.grid where
  valid := ht
  stores _ := .inl
  x := h.x.symm
  y := h.y.symm
  top := h.top.symm
  bottom := h.bottom.symm
  savedX := h.savedX.symm
  savedY := h.savedY.symm
  cells k hk := (h.cells k hk).symm

/-- Two valid consoles that agree but for the origin agree after any input. -/
theorem writeAll_sameScreen :
    (∀ v w : Vt Vga, v.screen.Valid → w.screen.Valid → v.Related SameScreen w →
      ∀ input, (v.writeAll input).Related SameScreen (w.writeAll input)) ∧
    (∀ s : Vga, s.Valid → s.top = 0 → s.bottom = lines →
      ∀ k < lines * columns, s.scrup.cell k =
        if k < (lines - 1) * columns then s.cell (k + columns) else 0x0720) ∧
    (∀ s : Vga, s.Valid → ¬ (s.top = 0 ∧ s.bottom = lines) →
      s.scrup.origin = s.origin ∧ ∀ k < lines * columns,
        k < s.top * columns ∨ s.bottom * columns ≤ k → s.scrup.cell k = s.cell k) ∧
    ∀ s : Vga, s.Valid → s.scrdown.origin = s.origin ∧ ∀ k < lines * columns,
      k < s.top * columns ∨ s.bottom * columns ≤ k → s.scrdown.cell k = s.cell k := by
  refine ⟨?_, ?_, ?_, ?_⟩
  · intro v w hv hw h input
    have hgrid : w.Related (Shows w.screen.stores) v.grid :=
      ⟨shows_of_sameScreen hw h.screen, h.state.symm, h.npar.symm, h.par.symm, h.ques.symm,
        h.attr.symm⟩
    have hv' := (Vt.related_grid hv).writeAll (shows_simulates _) input
    have hw' := hgrid.writeAll (shows_simulates _) input
    exact ⟨sameScreen_of_shows hv'.screen hw'.screen, hv'.state.trans hw'.state.symm,
      hv'.npar.trans hw'.npar.symm, hv'.par.trans hw'.par.symm, hv'.ques.trans hw'.ques.symm,
      hv'.attr.trans hw'.attr.symm⟩
  · intro s hs htop hbottom k hk
    rw [hs.scrup.cells k hk, Vga.shiftUp, htop, hbottom, if_pos ⟨by omega, hk⟩]
    show (if k + 80 < 25 * 80 then _ else _) = if k < 1920 then _ else _
    split
    · rw [if_pos (by omega)]
    · rw [if_neg (by omega)]
  · intro s hs hregion
    refine ⟨(hs.scrup_region hregion).2, fun k hk hout => ?_⟩
    rw [hs.scrup.cells k hk]
    have hout : k < s.top * 80 ∨ s.bottom * 80 ≤ k := hout
    exact if_neg (by omega)
  · intro s hs
    refine ⟨hs.scrdown.2, fun k hk hout => ?_⟩
    rw [hs.scrdown.1.cells k hk]
    have hout : k < s.top * 80 ∨ s.bottom * 80 ≤ k := hout
    exact if_neg (by omega)

/-- The console at boot with its screen at the end of video memory. -/
def lowConsole : Vt Vga :=
  { bootConsole with
    screen :=
      { bootConsole.screen with
        origin := screenEnd - 2 * lines * columns
        scrEnd := screenEnd
        pos := screenEnd - 2 * lines * columns } }

theorem writeAll_sameScreen_boot :
    bootConsole.screen.origin ≠ lowConsole.screen.origin ∧
      (bootConsole.writeAll [(127, 27), (127, 91), (127, 77)]).Related SameScreen
        (lowConsole.writeAll [(127, 27), (127, 91), (127, 77)]) := by
  have hlow : lowConsole.screen.Valid := by
    constructor <;> decide
  have hsame : bootConsole.Related SameScreen lowConsole :=
    ⟨⟨rfl, rfl, rfl, rfl, rfl, rfl, fun _ _ => rfl⟩, rfl, rfl, rfl, rfl, rfl⟩
  exact ⟨by decide, writeAll_sameScreen.1 _ _ bootConsole_valid hlow hsame _⟩

end Linux001.Console
