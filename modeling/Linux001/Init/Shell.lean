import Linux001.ProofKit.Sizes

/-! The shell of `init/main.c` that reads from the serial line. The buffer, its position and what
was echoed are kept apart; they agree with one line that is edited. -/

namespace Linux001.Init

open Function

def ascii (s : String) : List UInt8 := s.toList.map fun c => c.toNat.toUInt8

/-- What `early_serial_puts` sends. -/
def serial (s : List UInt8) : List UInt8 := s.flatMap fun c => if c = 10 then [13, 10] else [c]

/-- The lines that `cmd_ps` and `cmd_uptime` print. -/
structure World where
  cmdPs : List (List UInt8)
  cmdUptime : List UInt8

def strcmp : List UInt8 → List UInt8 → Int
  | a :: s, b :: t => if a = b then strcmp s t else a.toNat - b.toNat
  | s, t => (s.headD 0).toNat - (t.headD 0).toNat

/-- The lines that `process_command` prints for a command. -/
def response (w : World) (cmd : List UInt8) : List (List UInt8) :=
  if strcmp cmd (ascii "help") = 0 then
    ["Available commands:", "  help     - show this help", "  uname    - show system info",
      "  ps       - show processes", "  free     - show memory info", "  uptime   - show uptime",
      "  reboot   - reboot system"].map ascii
  else if strcmp cmd (ascii "uname") = 0 ∨ strcmp cmd (ascii "uname -a") = 0 then
    [ascii "Linux 0.01 (64-bit port) x86_64"]
  else if strcmp cmd (ascii "ps") = 0 then w.cmdPs
  else if strcmp cmd (ascii "free") = 0 then
    [ascii "Memory: 8MB total, 6MB usable (1536 pages)"]
  else if strcmp cmd (ascii "uptime") = 0 then [w.cmdUptime]
  else if strcmp cmd (ascii "reboot") = 0 then [ascii "Rebooting..."]
  else [ascii "Unknown command: " ++ cmd, ascii "Type 'help' for available commands."]

/-- `cmd_buf` and `cmd_pos`, what was sent and written, and the commands. -/
structure Shell where
  buf : Nat → UInt8
  pos : Nat
  out : List UInt8
  stores : List Nat
  commands : List (List UInt8)

namespace Shell

def puts (s : Shell) (l : List UInt8) : Shell := { s with out := s.out ++ serial l }

def store (s : Shell) (c : UInt8) : Shell :=
  { s with buf := update s.buf s.pos c, stores := s.pos :: s.stores }

def command (s : Shell) : List UInt8 := ((List.range 256).map s.buf).takeWhile (· ≠ 0)

def processCommand (w : World) (s : Shell) : Shell :=
  let s := s.store 0
  let s := { s with commands := s.commands ++ [s.command] }
  if s.pos = 0 then s else s.puts ((response w s.command).flatMap (· ++ [10]))

def prompt (s : Shell) : Shell := { s.puts (ascii "# ") with pos := 0 }

def byte (w : World) (s : Shell) (c : UInt8) : Shell :=
  if c = 13 ∨ c = 10 then ((s.puts [10]).processCommand w).prompt
  else if c = 127 ∨ c = 8 then
    if 0 < s.pos then { s with pos := s.pos - 1 }.puts [8, 32, 8] else s
  else if 32 ≤ c ∧ c < 127 ∧ s.pos < 255 then { s.store c with pos := s.pos + 1 }.puts [c]
  else s

def banner : List (List UInt8) :=
  ["", "====================================", "  Linux 0.01 - 64-bit Port Shell",
    "====================================", "Type 'help' for available commands.", ""].map ascii

def start (buf : Nat → UInt8) : Shell :=
  (Shell.mk buf 0 (serial (banner.flatMap (· ++ [10]))) [] []).prompt

def run (w : Nat → World) (buf : Nat → UInt8) (input : List UInt8) : Shell :=
  input.foldl (fun s c => s.byte (w s.commands.length) c) (start buf)

def contents (s : Shell) : List UInt8 := (List.range s.pos).map s.buf

end Shell

/-- The commands that were entered, and the line that is edited. -/
structure Editor where
  commands : List (List UInt8)
  line : List UInt8

def Editor.byte (e : Editor) (c : UInt8) : Editor :=
  if c = 13 ∨ c = 10 then ⟨e.commands ++ [e.line], []⟩
  else if c = 127 ∨ c = 8 then { e with line := e.line.dropLast }
  else if 32 ≤ c ∧ c < 127 ∧ e.line.length < 255 then { e with line := e.line ++ [c] }
  else e

/-- The line of a terminal in which the cursor is. -/
structure Terminal where
  cell : Nat → UInt8
  cursor : Nat

/-- A line feed moves to a line that is blank. -/
def Terminal.byte (t : Terminal) (c : UInt8) : Terminal :=
  if c = 8 then { t with cursor := t.cursor - 1 }
  else if c = 13 then { t with cursor := 0 }
  else if c = 10 then { t with cell := fun _ => 32 }
  else if 32 ≤ c ∧ c < 127 then ⟨update t.cell t.cursor c, t.cursor + 1⟩
  else t

def Terminal.after (t : Terminal) (out : List UInt8) : Terminal := out.foldl Terminal.byte t

/-- A line with the cursor behind it. -/
def Terminal.showing (l : List UInt8) : Terminal := ⟨fun i => l.getD i 32, l.length⟩

namespace Terminal

theorem after_append (t : Terminal) (l m : List UInt8) : t.after (l ++ m) = (t.after l).after m :=
  List.foldl_append

theorem showing_cell (l : List UInt8) (c : UInt8) :
    update (showing l).cell l.length c = (showing (l ++ [c])).cell := by
  funext i
  rcases lt_trichotomy i l.length with hi | rfl | hi
  · rw [update_of_ne hi.ne]
    exact (List.getD_append l [c] 32 i hi).symm
  · simp [showing]
  · rw [update_of_ne hi.ne']
    refine (List.getD_eq_default l 32 hi.le).trans (List.getD_eq_default _ 32 ?_).symm
    rw [List.length_append]
    exact hi

theorem showing_byte (l : List UInt8) {c : UInt8} (hc : 32 ≤ c ∧ c < 127) :
    (showing l).byte c = showing (l ++ [c]) := by
  have hne : ∀ d : UInt8, d < 32 → c ≠ d := fun d hd h => absurd hc.1 (UInt8.not_le.mpr (h ▸ hd))
  rw [byte, if_neg (hne 8 (by decide)), if_neg (hne 13 (by decide)), if_neg (hne 10 (by decide)),
    if_pos hc]
  show mk (update _ l.length c) _ = _
  rw [showing_cell, showing, List.length_append]
  rfl

theorem showing_erase (l : List UInt8) (c : UInt8) :
    (showing (l ++ [c])).after [8, 32, 8] = showing l := by
  have hback : (showing (l ++ [c])).byte 8 = ⟨(showing (l ++ [c])).cell, l.length⟩ := by
    simp [byte, showing]
  show (((showing (l ++ [c])).byte 8).byte 32).byte 8 = _
  rw [hback]
  show mk (update _ l.length 32) l.length = _
  congr 1
  rw [← showing_cell, update_idem]
  exact update_eq_self_iff.mpr (List.getD_eq_default l 32 le_rfl).symm

/-- The cursor is at the beginning of a blank line after some lines. -/
theorem after_lines (t : Terminal) (l : List UInt8) (lines : List (List UInt8)) :
    t.after (serial ((l :: lines).flatMap (· ++ [10]))) = showing [] := by
  induction lines generalizing t l with
  | nil =>
    rw [List.flatMap_singleton, serial, List.flatMap_append, after_append]
    rfl
  | cons l' lines ih =>
    rw [List.flatMap_cons, serial, List.flatMap_append, after_append]
    exact ih _ l'

end Terminal

theorem serial_char {c : UInt8} (hc : 32 ≤ c) : serial [c] = [c] := by
  rw [serial, List.flatMap_singleton, if_neg]
  rintro rfl
  exact absurd hc (by decide)

/-- The shell agrees with the editor, and a terminal shows the prompt and the line. -/
structure Agrees (s : Shell) (e : Editor) (t : Terminal) : Prop where
  pos : s.pos ≤ 255
  stores : ∀ i ∈ s.stores, i < 256
  commands : s.commands = e.commands
  line : s.contents = e.line
  chars : ∀ c ∈ e.line, c ≠ 0
  screen : t.after s.out = .showing (ascii "# " ++ e.line)

namespace Agrees

variable {s : Shell} {e : Editor} {t : Terminal}

theorem length (h : Agrees s e t) : e.line.length = s.pos := by
  rw [← h.line, Shell.contents, List.length_map, List.length_range]

theorem prompt (hstores : ∀ i ∈ s.stores, i < 256) (hscreen : t.after s.out = .showing []) :
    Agrees s.prompt ⟨s.commands, []⟩ t := by
  refine ⟨Nat.zero_le _, hstores, rfl, rfl, nofun, ?_⟩
  show t.after (s.out ++ serial (ascii "# ")) = _
  rw [Terminal.after_append, hscreen]
  show ((Terminal.showing []).byte 35).byte 32 = _
  rw [Terminal.showing_byte _ (by decide), Terminal.showing_byte _ (by decide)]
  rfl

theorem command (h : Agrees s e t) : (s.store 0).command = e.line := by
  have hlow : (List.range s.pos).map (update s.buf s.pos 0) = e.line := by
    rw [← h.line]
    exact List.map_congr_left fun i hi => update_of_ne (List.mem_range.mp hi).ne _ _
  obtain ⟨k, hk⟩ : ∃ k, 256 = s.pos + (k + 1) := ⟨255 - s.pos, by have := h.pos; omega⟩
  show ((List.range 256).map (update s.buf s.pos 0)).takeWhile (· ≠ 0) = _
  rw [hk, List.range_add, List.map_append, hlow,
    List.takeWhile_append_of_pos (by simpa using h.chars),
    List.range_succ_eq_map]
  simp

theorem enter (h : Agrees s e t) (w : World) :
    Agrees (((s.puts [10]).processCommand w).prompt) ⟨e.commands ++ [e.line], []⟩ t := by
  have hstores : ∀ i ∈ s.pos :: s.stores, i < 256 := by
    intro i hi
    rcases List.mem_cons.mp hi with rfl | hi
    · exact Nat.lt_succ_of_le h.pos
    · exact h.stores i hi
  rw [← h.command, ← h.commands, Shell.processCommand]
  split
  · refine .prompt hstores ?_
    show t.after (s.out ++ serial [10]) = _
    rw [Terminal.after_append]
    exact Terminal.after_lines _ [] []
  · refine .prompt hstores ?_
    show t.after (s.out ++ serial [10] ++ serial _) = _
    rw [List.append_assoc, serial, serial, ← List.flatMap_append, Terminal.after_append]
    exact Terminal.after_lines _ [] _

theorem erase (h : Agrees s e t) :
    Agrees (if 0 < s.pos then { s with pos := s.pos - 1 }.puts [8, 32, 8] else s)
      { e with line := e.line.dropLast } t := by
  obtain ⟨buf, pos, out, stores, commands⟩ := s
  have hline : (List.range pos).map buf = e.line := h.line
  cases pos with
  | zero =>
    obtain ⟨commands', _⟩ := e
    obtain rfl := hline
    exact h
  | succ pos =>
    rw [List.range_succ, List.map_append, List.map_singleton] at hline
    rw [if_pos pos.succ_pos, ← hline, List.dropLast_concat]
    refine ⟨Nat.le_of_succ_le h.pos, h.stores, h.commands, rfl, fun c hc => ?_, ?_⟩
    · exact h.chars c (hline ▸ List.mem_append_left _ hc)
    · show t.after (out ++ [8, 32, 8]) = _
      rw [Terminal.after_append, h.screen, ← hline, ← List.append_assoc]
      exact Terminal.showing_erase _ _

theorem type (h : Agrees s e t) {c : UInt8} (hc : 32 ≤ c ∧ c < 127) (hpos : s.pos < 255) :
    Agrees ({ s.store c with pos := s.pos + 1 }.puts [c]) { e with line := e.line ++ [c] } t := by
  refine ⟨hpos, fun i hi => ?_, h.commands, ?_, fun x hx => ?_, ?_⟩
  · rcases List.mem_cons.mp hi with rfl | hi
    · omega
    · exact h.stores i hi
  · show (List.range (s.pos + 1)).map (update s.buf s.pos c) = _
    rw [List.range_succ, List.map_append, ← h.line, List.map_singleton, update_self]
    congr 1
    exact List.map_congr_left fun i hi => update_of_ne (List.mem_range.mp hi).ne _ _
  · rcases List.mem_append.mp hx with hx | hx
    · exact h.chars x hx
    · obtain rfl := List.mem_singleton.mp hx
      rintro rfl
      exact absurd hc.1 (by decide)
  · show t.after (s.out ++ serial [c]) = _
    rw [Terminal.after_append, h.screen, serial_char hc.1, ← List.append_assoc]
    exact Terminal.showing_byte _ hc

theorem byte (h : Agrees s e t) (w : World) (c : UInt8) : Agrees (s.byte w c) (e.byte c) t := by
  unfold Shell.byte Editor.byte
  rw [h.length]
  split
  · exact h.enter w
  · split
    · exact h.erase
    · split
      · next hc => exact h.type ⟨hc.1, hc.2.1⟩ hc.2.2
      · exact h

end Agrees

/-- The agreement holds after every stream of bytes. -/
theorem run_agrees (w : Nat → World) (buf : Nat → UInt8) (t : Terminal) (input : List UInt8) :
    Agrees (.run w buf input) (input.foldl .byte ⟨[], []⟩) t := by
  induction input using List.reverseRecOn with
  | nil => exact .prompt nofun (t.after_lines _ _)
  | append_singleton input c ih =>
    rw [Shell.run, List.foldl_append, List.foldl_append]
    exact ih.byte _ c

end Linux001.Init
