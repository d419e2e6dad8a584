import Linux001.Tty.Echo

/-! The line discipline: the secondary queue holds the edited input that `tty_read` has not taken
yet, and its counter the ends of lines. -/

namespace Linux001.Tty

open Function ProofKit Console

variable {σ : Type*}

def editLine (line : List UInt8) : Op → List UInt8
  | .input tm c =>
    match tm.action c with
    | .erase =>
      match line.getLast? with
      | none => line
      | some d => if tm.endsLine d then line else line.dropLast
    | .queue c => line ++ [c]
    | _ => line
  | .take => line.tail

def replay (log : List Op) : List UInt8 := log.foldl editLine []

def inputs (log : List Op) : List UInt8 :=
  log.filterMap fun
    | .input _ c => some c
    | .take => none

theorem replay_concat (log : List Op) (o : Op) :
    replay (log ++ [o]) = editLine (replay log) o := by
  rw [replay, List.foldl_append]
  rfl

def Counted (tm : Termios) (q : Queue) : Prop := q.data.toNat = q.contents.countP tm.endsLine

structure Disciplined (t : TtyStruct σ) : Prop where
  readQ : t.readQ.Sound
  secondary : t.secondary.Sound
  contents : t.secondary.contents = replay t.log
  entered : inputs t.log ++ t.readQ.contents = t.entered
  counted : Counted t.termios t.secondary

section Edit

variable {tm : Termios} {q : Queue} {c : UInt8}

theorem Counted.putch (h : Counted tm q) (hroom : ¬ q.full = true) (c : UInt8) :
    Counted tm ((if tm.endsLine c then { q with data := q.data + 1 } else q).putch c) := by
  have hcount := q.contents.countP_le_length (p := tm.endsLine)
  have hlt := q.chars_lt
  rw [q.length_contents] at hcount
  split
  · next hend =>
    show (q.data + 1).toNat = ((q.putch c).contents).countP tm.endsLine
    rw [Queue.contents_putch hroom, List.countP_append, List.countP_singleton, if_pos hend,
      BitVec.toNat_add, h]
    have hone : (1 : BitVec 64).toNat = 1 := rfl
    exact Nat.mod_eq_of_lt (by omega)
  · next hend =>
    show q.data.toNat = ((q.putch c).contents).countP tm.endsLine
    rw [Queue.contents_putch hroom, List.countP_append, List.countP_singleton, if_neg hend, h]
    rfl

theorem contents_edit (hroom : ¬ q.full = true) :
    (TtyStruct.edit tm q c).contents = editLine q.contents (.input tm c) := by
  unfold TtyStruct.edit editLine
  dsimp only
  cases tm.action c with
  | drop | stop | start => rfl
  | erase =>
    by_cases hempty : q.isEmpty = true
    · rw [if_pos (.inl hempty), Queue.contents_eq_nil (Queue.isEmpty_iff.mp hempty)]
      rfl
    have hlast := Queue.contents_eq_concat hempty
    have hget : q.contents.getLast? = some q.last := by
      rw [hlast]
      exact List.getLast?_concat
    rw [hget]
    dsimp only
    by_cases hend : tm.endsLine q.last = true
    · rw [if_pos (.inr hend), if_pos hend]
    · rw [if_neg (not_or.mpr ⟨hempty, hend⟩), if_neg hend, hlast, List.dropLast_concat]
  | queue c =>
    dsimp only
    split
    · exact Queue.contents_putch hroom
    · exact Queue.contents_putch hroom

theorem Counted.edit (h : Counted tm q) (hroom : ¬ q.full = true) :
    Counted tm (TtyStruct.edit tm q c) := by
  unfold TtyStruct.edit
  cases tm.action c with
  | drop | stop | start => exact h
  | erase =>
    dsimp only
    split
    · exact h
    · next hno =>
      obtain ⟨hempty, hend⟩ := not_or.mp hno
      rw [Counted, Queue.contents_eq_concat hempty, List.countP_append, List.countP_singleton,
        if_neg hend] at h
      rw [Counted, Queue.data_dec]
      exact h
  | queue c => exact h.putch hroom c

theorem Counted.take (h : Counted tm q) (hne : ¬ q.isEmpty = true) : Counted tm (q.take tm) := by
  rw [Counted, Queue.contents_eq_cons hne, List.countP_cons] at h
  unfold Queue.take
  split
  · next hend =>
    rw [if_pos hend] at h
    show (q.data - 1).toNat = q.getch.contents.countP tm.endsLine
    have hle : (1 : BitVec 64) ≤ q.data := by
      show 1 ≤ q.data.toNat
      omega
    rw [BitVec.toNat_sub_of_le hle]
    show q.data.toNat - 1 = _
    omega
  · next hend =>
    rw [if_neg hend] at h
    exact h

end Edit

variable {t t' : TtyStruct σ}

theorem Disciplined.round (h : Disciplined t) (hne : ¬ t.readQ.isEmpty = true)
    (hroom : ¬ t.secondary.full = true) (hround : t.Round t') : Disciplined t' := by
  obtain ⟨v, b, heq⟩ := hround.eq
  rw [heq]
  refine ⟨h.readQ.getch hne, TtyStruct.edit_sound h.secondary hroom, ?_, ?_, h.counted.edit hroom⟩
  · rw [contents_edit hroom, replay_concat, h.contents]
  · rw [← h.entered, Queue.contents_eq_cons hne, inputs, List.filterMap_append, List.append_assoc]
    rfl

theorem Disciplined.take (h : Disciplined t) (hne : ¬ t.secondary.isEmpty = true) :
    Disciplined t.takeChar := by
  refine ⟨h.readQ, h.secondary.take hne _, ?_, ?_, h.counted.take hne⟩
  · show (t.secondary.take t.termios).contents = replay (t.log ++ [.take])
    rw [Queue.contents_take hne, replay_concat, h.contents]
    rfl
  · show inputs (t.log ++ [.take]) ++ t.readQ.contents = t.entered
    rw [← h.entered, inputs, List.filterMap_append]
    simp [inputs]

/-- The condition of a run: no ESC Z for the console, and `EOF_CHAR` stays. -/
def KeepsEof (t : TtyStruct σ) (e : Event) : Prop :=
  ∀ tm, e = .settings tm → tm.veof = t.termios.veof

theorem Counted.settings {tm tm' : Termios} {q : Queue} (h : Counted tm q)
    (heof : tm'.veof = tm.veof) : Counted tm' q := by
  have hsame : tm'.endsLine = tm.endsLine := by
    funext c
    rw [Termios.endsLine, Termios.endsLine, heof]
  rw [Counted, hsame]
  exact h

variable [Screen σ]

theorem Disciplined.step (h : Disciplined t) {e : Event} (hcalm : Calm t e) (heof : KeepsEof t e)
    (hs : step t e = some t') : Disciplined t' := by
  rcases step_cases hcalm hs with ⟨c, hroom, rfl⟩ | ⟨n, f, rfl, hloop⟩ | ⟨nr, rfl⟩ |
    ⟨tm, rfl, rfl⟩ | ⟨q, v, b, rfl, -⟩
  · refine ⟨h.readQ.putch hroom c, h.secondary, h.contents, ?_, h.counted⟩
    rw [← h.entered, List.append_assoc, ← Queue.contents_putch hroom]
  · exact TtyStruct.copyLoop_quiet
      (fun _ _ hne hroom hround h => h.round hne hroom hround) hloop hcalm h
  · exact TtyStruct.drain_keeps (fun _ hne h => h.take hne) h nr
  · exact ⟨h.readQ, h.secondary, h.contents, h.entered, h.counted.settings (heof tm rfl)⟩
  · exact ⟨h.readQ, h.secondary, h.contents, h.entered, h.counted⟩

omit [Screen σ] in
theorem disciplined_boot (console : Bool) (tm : Termios) (vt : Vt σ) :
    Disciplined (TtyStruct.boot console tm vt) := by
  have hnil : (Queue.empty 0).contents = [] := Queue.contents_eq_nil (Queue.chars_empty 0)
  refine ⟨Queue.sound_empty 0, Queue.sound_empty 0, hnil, ?_, ?_⟩
  · show inputs [] ++ (Queue.empty 0).contents = []
    rfl
  · show (0 : BitVec 64).toNat = (Queue.empty 0).contents.countP tm.endsLine
    rfl

/-- Without an ESC Z for the console, the secondary queue holds the edited input not taken yet, and
the counter its ends of lines. -/
theorem disciplined_of_reaches {console : Bool} {tm : Termios} {vt : Vt σ}
    (hreach : Reaches step (fun t e => Calm t e ∧ KeepsEof t e) (TtyStruct.boot console tm vt) t) :
    t.secondary.data.toNat = t.secondary.contents.countP t.termios.endsLine ∧
      t.secondary.overrun = false ∧ t.secondary.contents = replay t.log ∧
      inputs t.log ++ t.readQ.contents = t.entered := by
  have h : Disciplined t := hreach.invariant (P := Disciplined)
    (fun _ _ _ h hok hs => h.step hok.1 hok.2 hs) (disciplined_boot console tm vt)
  exact ⟨h.counted, h.secondary.overrun, h.contents, h.entered⟩

instance (t : TtyStruct σ) (e : Event) : Decidable (KeepsEof t e) :=
  match e with
  | .settings tm =>
    decidable_of_iff (tm.veof = t.termios.veof) ⟨fun h _ he => Event.settings.inj he ▸ h,
      fun h => h tm rfl⟩
  | .receive _ | .cook _ | .read _ | .output .. | .conWrite _ | .transmit | .crFlag _ =>
    isTrue fun _ he => nomatch he

def consoleTermios : Termios where
  inlcr := false
  igncr := false
  icrnl := false
  iuclc := false
  opost := true
  olcuc := false
  onlcr := true
  ocrnl := false
  onlret := false
  isig := false
  icanon := true
  echo := true
  echoctl := true
  vintr := 3
  verase := 127
  veof := 4
  vstart := 17
  vstop := 19
  upper := fun _ => false
  lower := fun _ => false

def consoleTty : TtyStruct Vga := .boot true consoleTermios bootConsole

/-- The line "ab" with its last letter erased, of which the first letter is read. -/
theorem disciplined_of_reaches_line :
    ∃ t, Reaches step (fun t e => Calm t e ∧ KeepsEof t e) consoleTty t ∧
      t.secondary.contents = [10] ∧ t.entered = [97, 98, 127, 10] ∧
      t.secondary.contents = replay t.log := by
  have hcheck : ∀ (t : TtyStruct Vga) e, decide (Calm t e ∧ KeepsEof t e) = true →
      Calm t e ∧ KeepsEof t e := fun _ _ h => of_decide_eq_true h
  have hrun : (run (fun t e => if decide (Calm t e ∧ KeepsEof t e) then step t e else none)
      [.receive 97, .receive 98, .receive 127, .receive 10, .cook 5, .read 1] consoleTty).map
      (fun t => (t.secondary.contents, t.entered)) = some ([10], [97, 98, 127, 10]) := by
    decide +kernel
  obtain ⟨t, hs, hbytes⟩ := Option.map_eq_some_iff.mp hrun
  obtain ⟨hsecondary, hentered⟩ := Prod.mk.inj hbytes
  have hreach : Reaches step (fun t e => Calm t e ∧ KeepsEof t e) consoleTty t :=
    reaches_of_checked hcheck hs
  exact ⟨t, hreach, hsecondary, hentered, (disciplined_of_reaches hreach).2.2.1⟩

/-- Alt-[ echoes an ESC, and the answer is queued before the Z. -/
theorem answer_before_letter :
    ∃ t, Reaches step KeepsEof consoleTty t ∧
      t.entered = [0xdb, 0x5a] ++ TtyStruct.response ∧
      inputs t.log = t.entered ∧
      t.secondary.contents = [0xdb] ++ TtyStruct.response ++ [0x5a] ∧
      replay t.log = [0xdb, 0x5a] ++ TtyStruct.response ∧ t.secondary.contents ≠ replay t.log := by
  have hrun : (run step [.receive 0xdb, .receive 0x5a, .cook 10] consoleTty).map
      (fun t => (t.entered, inputs t.log, t.secondary.contents, replay t.log)) =
      some ([0xdb, 0x5a] ++ TtyStruct.response, [0xdb, 0x5a] ++ TtyStruct.response,
        [0xdb] ++ TtyStruct.response ++ [0x5a], [0xdb, 0x5a] ++ TtyStruct.response) := by
    decide +kernel
  obtain ⟨t, hs, heq⟩ := Option.map_eq_some_iff.mp hrun
  simp only [Prod.mk.injEq] at heq
  obtain ⟨hentered, hinputs, hcontents, hreplay⟩ := heq
  refine ⟨t, reaches_of_run hs ?_, hentered, hinputs.trans hentered.symm, hcontents, hreplay, ?_⟩
  · intro e he s tm heq
    subst heq
    simp at he
  · rw [hcontents, hreplay]
    decide

end Linux001.Tty
