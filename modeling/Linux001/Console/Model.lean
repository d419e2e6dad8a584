import Linux001.ProofKit.Bytes

/-! The console of `kernel/console.c`: the screen in video memory with its hardware scrolling, and
the character state machine of `con_write` over any screen that has its operations. -/

namespace Linux001.Console

open Function ProofKit

abbrev lines : Nat := 25
abbrev columns : Nat := 80
abbrev screenStart : Nat := 0xb8000
abbrev screenEnd : Nat := 0xc0000

abbrev blank : Nat := 0x0720

def u64 (n : Nat) : Nat := n % 2 ^ 64

def u32 (n : Nat) : Nat := n % 2 ^ 32

def sub64 (a b : Nat) : Nat := (a + (2 ^ 64 - b % 2 ^ 64)) % 2 ^ 64

/-- What `csi_J` and `csi_K` erase: from the cursor on, up to the cursor, or all. -/
inductive Erase
  | after | before | all | none

def erase (vpar : Nat) : Erase :=
  match u32 vpar with
  | 0 => .after
  | 1 => .before
  | 2 => .all
  | _ => .none

/-- The video memory and the screen's variables; `stores` records addresses. -/
structure Vga where
  mem : Bytes
  (origin scrEnd pos x y top bottom savedX savedY : Nat)
  stores : List Nat

namespace Vga

def poke (s : Vga) (a w : Nat) : Vga :=
  { s with mem := s.mem.store a 2 w, stores := a :: s.stores }

def peek (s : Vga) (a : Nat) : Nat := s.mem.load a 2

def memsetw (dest val : Nat) : (count : Nat) → Vga → Vga
  | 0, s => s
  | count + 1, s => memsetw (dest + 2) val count (s.poke dest val)

def memcpyw (dest src : Nat) : (count : Nat) → Vga → Vga
  | 0, s => s
  | count + 1, s => memcpyw (dest + 2) (src + 2) count (s.poke dest (s.peek src))

def memcpywBackward (dest src : Nat) : (count : Nat) → Vga → Vga
  | 0, s => s
  | count + 1, s =>
    memcpywBackward dest src count (s.poke (dest + 2 * count) (s.peek (src + 2 * count)))

def gotoxy (newX newY : Nat) (s : Vga) : Vga :=
  if columns ≤ u32 newX ∨ lines ≤ u32 newY then s
  else
    { s with
      x := u32 newX
      y := u32 newY
      pos := u64 (s.origin + 2 * (u32 newY * columns + u32 newX)) }

def scrup (s : Vga) : Vga :=
  if s.top = 0 ∧ s.bottom = lines then
    let s :=
      { s with
        origin := u64 (s.origin + 2 * columns)
        pos := u64 (s.pos + 2 * columns)
        scrEnd := u64 (s.scrEnd + 2 * columns) }
    if screenEnd < s.scrEnd then
      let s := memcpyw screenStart s.origin ((lines - 1) * columns) s
      let s := memsetw (screenStart + (lines - 1) * columns * 2) blank columns s
      { s with
        scrEnd := sub64 s.scrEnd (sub64 s.origin screenStart)
        pos := sub64 s.pos (sub64 s.origin screenStart)
        origin := screenStart }
    else memsetw (sub64 s.scrEnd (2 * columns)) blank columns s
  else
    let s := memcpyw (u64 (s.origin + 2 * columns * s.top))
      (u64 (s.origin + 2 * columns * (s.top + 1)))
      (u64 (sub64 (sub64 s.bottom s.top) 1 * columns)) s
    memsetw (u64 (s.origin + 2 * columns * sub64 s.bottom 1)) blank columns s

def scrdown (s : Vga) : Vga :=
  let s := memcpywBackward (u64 (s.origin + 2 * columns * (s.top + 1)))
    (u64 (s.origin + 2 * columns * s.top)) (u64 (sub64 (sub64 s.bottom s.top) 1 * columns)) s
  memsetw (u64 (s.origin + 2 * columns * s.top)) blank columns s

def lf (s : Vga) : Vga :=
  if u64 (s.y + 1) < s.bottom then
    { s with y := u64 (s.y + 1), pos := u64 (s.pos + 2 * columns) }
  else s.scrup

def ri (s : Vga) : Vga :=
  if s.top < s.y then { s with y := sub64 s.y 1, pos := sub64 s.pos (2 * columns) }
  else s.scrdown

def cr (s : Vga) : Vga := { s with pos := sub64 s.pos (2 * s.x), x := 0 }

def del (s : Vga) : Vga :=
  if s.x ≠ 0 then
    let s := { s with pos := sub64 s.pos 2, x := sub64 s.x 1 }
    s.poke s.pos blank
  else s

def wrap (s : Vga) : Vga :=
  lf { s with x := sub64 s.x columns, pos := sub64 s.pos (2 * columns) }

def print (w : Nat) (s : Vga) : Vga :=
  let s := if columns ≤ s.x then s.wrap else s
  let s := s.poke s.pos w
  { s with pos := u64 (s.pos + 2), x := u64 (s.x + 1) }

def backspace (s : Vga) : Vga :=
  if s.x ≠ 0 then { s with x := sub64 s.x 1, pos := sub64 s.pos 2 } else s

def tab (s : Vga) : Vga :=
  let c := 8 - s.x % 8
  let s := { s with x := u64 (s.x + c), pos := u64 (s.pos + 2 * c) }
  if columns < s.x then s.wrap else s

def csiJ (vpar : Nat) (s : Vga) : Vga :=
  match erase vpar with
  | .after => memsetw s.pos blank (sub64 s.scrEnd s.pos / 2) s
  | .before => memsetw s.origin blank (sub64 s.pos s.origin / 2) s
  | .all => memsetw s.origin blank (columns * lines) s
  | .none => s

def csiK (vpar : Nat) (s : Vga) : Vga :=
  match erase vpar with
  | .after => if columns ≤ s.x then s else memsetw s.pos blank (sub64 columns s.x) s
  | .before => memsetw (sub64 s.pos (2 * s.x)) blank (if s.x < columns then s.x else columns) s
  | .all => memsetw (sub64 s.pos (2 * s.x)) blank columns s
  | .none => s

def insertLoop : (n p old : Nat) → Vga → Vga
  | 0, _, _, s => s
  | n + 1, p, old, s => insertLoop n (p + 2) (s.peek p) (s.poke p old)

def insertChar (s : Vga) : Vga := insertLoop (columns - u32 s.x) s.pos blank s

def deleteLoop : (n p : Nat) → Vga → Vga
  | 0, p, s => s.poke p blank
  | n + 1, p, s => deleteLoop n (p + 2) (s.poke p (s.peek (p + 2)))

def deleteChar (s : Vga) : Vga :=
  if columns ≤ s.x then s else deleteLoop (columns - 1 - u32 s.x) s.pos s

def insertLine (s : Vga) : Vga :=
  { scrdown { s with top := s.y, bottom := lines } with top := s.top, bottom := s.bottom }

def deleteLine (s : Vga) : Vga :=
  { scrup { s with top := s.y, bottom := lines } with top := s.top, bottom := s.bottom }

/-- The number of times that `csi_at`, `csi_L`, `csi_P` and `csi_M` work. -/
def repeats (nr max : Nat) : Nat :=
  if max < u32 nr then max else if u32 nr = 0 then 1 else u32 nr

def csiAt (nr : Nat) (s : Vga) : Vga := insertChar^[repeats nr columns] s
def csiL (nr : Nat) (s : Vga) : Vga := insertLine^[repeats nr lines] s
def csiP (nr : Nat) (s : Vga) : Vga := deleteChar^[repeats nr columns] s
def csiM (nr : Nat) (s : Vga) : Vga := deleteLine^[repeats nr lines] s

def saveCur (s : Vga) : Vga := { s with savedX := s.x, savedY := s.y }

def restoreCur (s : Vga) : Vga :=
  { s with
    x := s.savedX
    y := s.savedY
    pos := u64 (s.origin + 2 * (s.savedY * columns + s.savedX)) }

def setRegion (top bottom : Nat) (s : Vga) : Vga := { s with top, bottom }

end Vga

/-- The operations that `con_write` uses on a screen. -/
class Screen (σ : Type*) where
  (x y : σ → Nat)
  print : Nat → σ → σ
  (lf ri cr del backspace tab saveCur restoreCur : σ → σ)
  (gotoxy setRegion : Nat → Nat → σ → σ)
  (csiJ csiK csiAt csiL csiP csiM : Nat → σ → σ)

instance : Screen Vga where
  x := Vga.x
  y := Vga.y
  print := Vga.print
  lf := Vga.lf
  ri := Vga.ri
  cr := Vga.cr
  del := Vga.del
  backspace := Vga.backspace
  tab := Vga.tab
  saveCur := Vga.saveCur
  restoreCur := Vga.restoreCur
  gotoxy := Vga.gotoxy
  setRegion := Vga.setRegion
  csiJ := Vga.csiJ
  csiK := Vga.csiK
  csiAt := Vga.csiAt
  csiL := Vga.csiL
  csiP := Vga.csiP
  csiM := Vga.csiM

/-- A screen with the state machine; `indexed` records the indices of `par`. -/
structure Vt (σ : Type*) where
  screen : σ
  (state npar : Nat)
  par : Nat → Nat
  ques : Bool
  attr : Nat
  indexed : List Nat

inductive Ground
  | print | escape | lf | cr | del | backspace | tab | none

/-- `c` is a `char` and so negative from 128 on; `erase` is an `unsigned char`. -/
def ground (erase c : UInt8) : Ground :=
  if 31 < c ∧ c < 127 then .print
  else if c = 27 then .escape
  else if c = 10 ∨ c = 11 ∨ c = 12 then .lf
  else if c = 13 then .cr
  else if c = erase ∧ c < 128 then .del
  else if c = 8 then .backspace
  else if c = 9 then .tab
  else .none

/-- What a character is in state 1.  The tests for '7' and '8' look at `x`. -/
inductive Escape
  | bracket | nextLine | ri | lf | respond | other

def escape (c : UInt8) : Escape :=
  match c with
  | 0x5b => .bracket -- [
  | 0x45 => .nextLine -- E
  | 0x4d => .ri -- M
  | 0x44 => .lf -- D
  | 0x5a => .respond -- Z
  | _ => .other

inductive Csi
  | G | A | B | C | D | E | F | d | H | J | K | L | M | P | at | m | r | s | u | none

def csi (c : UInt8) : Csi :=
  match c with
  | 0x47 | 0x60 => .G -- and the grave accent
  | 0x41 => .A
  | 0x42 | 0x65 => .B -- and e
  | 0x43 | 0x61 => .C -- and a
  | 0x44 => .D
  | 0x45 => .E
  | 0x46 => .F
  | 0x64 => .d
  | 0x48 | 0x66 => .H -- and f
  | 0x4a => .J
  | 0x4b => .K
  | 0x4c => .L
  | 0x4d => .M
  | 0x50 => .P
  | 0x40 => .at
  | 0x6d => .m
  | 0x72 => .r
  | 0x73 => .s
  | 0x75 => .u
  | _ => .none

namespace Vt

variable {σ : Type*}

def setPar (v : Vt σ) (i n : Nat) : Vt σ := { v with par := update v.par i n }

def decPar (v : Vt σ) (i : Nat) : Vt σ := if v.par i ≠ 0 then v.setPar i (v.par i - 1) else v

def onePar (v : Vt σ) : Vt σ := if v.par 0 = 0 then v.setPar 0 1 else v

def onScreen (v : Vt σ) (f : σ → σ) : Vt σ := { v with screen := f v.screen }

def setAttr (par : Nat → Nat) (attr i : Nat) : Nat :=
  match par i with
  | 0 => 0x07
  | 1 => 0x0f
  | 4 => 0x0f
  | 7 => 0x70
  | 27 => 0x07
  | _ => attr

def csiM (v : Vt σ) : Vt σ :=
  { v with
    attr := (List.range (v.npar + 1)).foldl (setAttr v.par) v.attr
    indexed := List.range (v.npar + 1) ++ v.indexed }

variable [Screen σ]

def x (v : Vt σ) : Nat := Screen.x v.screen
def y (v : Vt σ) : Nat := Screen.y v.screen
def gotoxy (v : Vt σ) (newX newY : Nat) : Vt σ := v.onScreen (Screen.gotoxy newX newY)

def ground (v : Vt σ) (c : UInt8) : Ground → Vt σ
  | .print => v.onScreen (Screen.print (v.attr * 256 + c.toNat))
  | .escape => { v with state := 1 }
  | .lf => v.onScreen Screen.lf
  | .cr => v.onScreen Screen.cr
  | .del => v.onScreen Screen.del
  | .backspace => v.onScreen Screen.backspace
  | .tab => v.onScreen Screen.tab
  | .none => v

def escape (v : Vt σ) (e : Escape) : Vt σ :=
  let v := { v with state := 0 }
  match e with
  | .bracket => { v with state := 2 }
  | .nextLine => v.gotoxy 0 (u64 (v.y + 1))
  | .ri => v.onScreen Screen.ri
  | .lf => v.onScreen Screen.lf
  | .respond => v
  | .other =>
    if v.x = 0x37 then v.onScreen Screen.saveCur
    else if v.x = 0x38 then v.onScreen Screen.restoreCur
    else v

def command (v : Vt σ) (c : Csi) : Vt σ :=
  let v := { v with state := 0 }
  match c with
  | .G =>
    let v := v.decPar 0
    v.gotoxy (v.par 0) v.y
  | .A =>
    let v := v.onePar
    v.gotoxy v.x (sub64 v.y (v.par 0))
  | .B =>
    let v := v.onePar
    v.gotoxy v.x (u64 (v.y + v.par 0))
  | .C =>
    let v := v.onePar
    v.gotoxy (u64 (v.x + v.par 0)) v.y
  | .D =>
    let v := v.onePar
    v.gotoxy (sub64 v.x (v.par 0)) v.y
  | .E =>
    let v := v.onePar
    v.gotoxy 0 (u64 (v.y + v.par 0))
  | .F =>
    let v := v.onePar
    v.gotoxy 0 (sub64 v.y (v.par 0))
  | .d =>
    let v := v.decPar 0
    v.gotoxy v.x (v.par 0)
  | .H =>
    let v := (v.decPar 0).decPar 1
    v.gotoxy (v.par 1) (v.par 0)
  | .J => v.onScreen (Screen.csiJ (v.par 0))
  | .K => v.onScreen (Screen.csiK (v.par 0))
  | .L => v.onScreen (Screen.csiL (v.par 0))
  | .M => v.onScreen (Screen.csiM (v.par 0))
  | .P => v.onScreen (Screen.csiP (v.par 0))
  | .at => v.onScreen (Screen.csiAt (v.par 0))
  | .m => v.csiM
  | .r =>
    let v := v.decPar 0
    let v := if v.par 1 = 0 then v.setPar 1 lines else v
    if v.par 0 < v.par 1 ∧ v.par 1 ≤ lines then v.onScreen (Screen.setRegion (v.par 0) (v.par 1))
    else v
  | .s => v.onScreen Screen.saveCur
  | .u => v.onScreen Screen.restoreCur
  | .none => v

def parameter (v : Vt σ) (c : UInt8) : Vt σ :=
  if c = 0x3b ∧ v.npar < 15 then { v with npar := v.npar + 1 }
  else if 0x30 ≤ c ∧ c ≤ 0x39 then
    { v.setPar v.npar (u64 (10 * v.par v.npar + (c.toNat - 0x30))) with
      indexed := v.npar :: v.indexed }
  else v.command (csi c)

/-- State 2: all of `par` is cleared, and a question mark is noted. -/
def bracket (v : Vt σ) (c : UInt8) : Vt σ :=
  let v :=
    { v with
      par := fun i => if i < 16 then 0 else v.par i
      indexed := List.range 16 ++ v.indexed
      npar := 0
      state := 3
      ques := c = 0x3f }
  if c = 0x3f then v else v.parameter c

def write (v : Vt σ) (erase c : UInt8) : Vt σ :=
  match v.state with
  | 0 => v.ground c (Console.ground erase c)
  | 1 => v.escape (Console.escape c)
  | 2 => v.bracket c
  | 3 => v.parameter c
  | 4 => v.command (csi c)
  | _ => v

def writeAll (v : Vt σ) (input : List (UInt8 × UInt8)) : Vt σ :=
  input.foldl (fun v e => v.write e.1 e.2) v

end Vt

end Linux001.Console
