import Linux001.Tty.Discipline

/-! The queues of a terminal are not overrun, as long as the console gets no ESC Z and there is room
for the echo. -/

namespace Linux001.Tty

open Function ProofKit Console

variable {σ : Type*} {t t' : TtyStruct σ}

structure Kept (t : TtyStruct σ) : Prop where
  readQ : t.readQ.Sound
  writeQ : t.writeQ.Sound
  secondary : t.secondary.Sound

/-- There is room for two characters of echo for each character in the read queue. -/
def EchoRoom (t : TtyStruct σ) : Prop :=
  t.console = false → t.termios.echo = true → 2 * t.readQ.chars ≤ t.writeQ.left

theorem echoed_sound {q : Queue} (hne : ¬ t.readQ.isEmpty = true) (h : t.writeQ.Sound)
    (hroom : EchoRoom t) (hechoed : t.Echoed q) :
    q.Sound ∧ (t.console = false → t.termios.echo = true →
      2 * t.readQ.getch.chars ≤ q.left) := by
  have hpos := Queue.chars_pos hne
  rw [TtyStruct.Echoed] at hechoed
  split at hechoed
  · next hc =>
    refine ⟨?_, fun hno => absurd (hc.symm.trans hno) (by decide)⟩
    rcases hechoed with rfl | ⟨-, hsound⟩
    · exact h
    · exact hsound h
  · next hc =>
    obtain ⟨l, hl, hnil, rfl⟩ := hechoed
    have hserial : t.console = false := Bool.eq_false_iff.mpr hc
    cases hecho : t.termios.echo with
    | false =>
      rw [hnil hecho]
      exact ⟨h, fun _ he => absurd he (by decide)⟩
    | true =>
      have hleft := hroom hserial hecho
      obtain ⟨-, hchars, hsound⟩ := Queue.putAll_spec (q := t.writeQ) (l := l) (by omega)
      refine ⟨hsound h, fun _ _ => ?_⟩
      rw [Queue.left_eq] at hleft ⊢
      rw [hchars, Queue.chars_getch hne]
      omega

theorem Kept.round (h : Kept t ∧ EchoRoom t) (hne : ¬ t.readQ.isEmpty = true)
    (hroom : ¬ t.secondary.full = true) (hround : t.Round t') : Kept t' ∧ EchoRoom t' := by
  obtain ⟨hkept, hecho⟩ := h
  obtain ⟨hsound, hleft⟩ := echoed_sound hne hkept.writeQ hecho hround.echoed
  obtain ⟨v, b, heq⟩ := hround.eq
  rw [heq]
  exact ⟨⟨hkept.readQ.getch hne, hsound, TtyStruct.edit_sound hkept.secondary hroom⟩, hleft⟩

theorem Kept.drain (h : Kept t) (nr : Nat) : Kept (t.drain nr) :=
  TtyStruct.drain_keeps (fun _ hne h => ⟨h.readQ, h.writeQ, h.secondary.take hne _⟩) h nr

variable [Screen σ]

def Roomy (t : TtyStruct σ) (e : Event) : Prop :=
  Calm t e ∧ ∀ n, e = .cook n → EchoRoom t

theorem Kept.step (h : Kept t) {e : Event} (hroomy : Roomy t e) (hs : step t e = some t') :
    Kept t' := by
  rcases step_cases hroomy.1 hs with ⟨c, hroom, rfl⟩ | ⟨n, f, rfl, hloop⟩ | ⟨nr, rfl⟩ |
    ⟨tm, rfl, rfl⟩ | ⟨q, v, b, rfl, hsound⟩
  · exact ⟨h.readQ.putch hroom c, h.writeQ, h.secondary⟩
  · have hloop' := TtyStruct.copyLoop_quiet (P := fun t => Kept t ∧ EchoRoom t)
      (fun _ _ hne hroom hround h => Kept.round h hne hroom hround) hloop hroomy.1
      ⟨h, hroomy.2 _ rfl⟩
    exact hloop'.1
  · exact h.drain nr
  · exact ⟨h.readQ, h.writeQ, h.secondary⟩
  · exact ⟨h.readQ, hsound h.writeQ, h.secondary⟩

/-- Without an ESC Z and with room for the echo, each queue holds what was put and not taken. -/
theorem kept_of_reaches {console : Bool} {tm : Termios} {vt : Vt σ}
    (hreach : Reaches step Roomy (TtyStruct.boot console tm vt) t) :
    ∀ q ∈ [t.readQ, t.writeQ, t.secondary], q.overrun = false ∧ q.put = q.taken + q.chars := by
  have h : Kept t := hreach.invariant (P := Kept) (fun _ _ _ h hok hs => h.step hok hs)
    ⟨Queue.sound_empty 0, Queue.sound_empty 0, Queue.sound_empty 0⟩
  have hall : ∀ q ∈ [t.readQ, t.writeQ, t.secondary], q.Sound := by
    intro q hq
    simp only [List.mem_cons, List.not_mem_nil, or_false] at hq
    rcases hq with rfl | rfl | rfl
    · exact h.readQ
    · exact h.writeQ
    · exact h.secondary
  exact fun q hq => ⟨(hall q hq).overrun, (hall q hq).chars⟩

instance (t : TtyStruct σ) (e : Event) : Decidable (Roomy t e) :=
  match e with
  | .cook n =>
    have : Decidable (EchoRoom t) := inferInstanceAs (Decidable (_ → _ → _))
    decidable_of_iff (Calm t (.cook n) ∧ EchoRoom t)
      ⟨fun h => ⟨h.1, fun _ _ => h.2⟩, fun h => ⟨h.1, h.2 n rfl⟩⟩
  | .receive _ | .read _ | .output .. | .conWrite _ | .transmit | .settings _ | .crFlag _ =>
    decidable_of_iff (Calm t _) ⟨fun h => ⟨h, fun _ he => nomatch he⟩, fun h => h.1⟩

def serialTty : TtyStruct Vga := .boot false consoleTermios bootConsole

/-- A received newline is echoed as two characters, of which one is sent. -/
theorem kept_of_reaches_echo :
    ∃ t, Reaches step Roomy serialTty t ∧
      (t.writeQ.put, t.writeQ.taken, t.writeQ.chars) = (2, 1, 1) ∧
      ∀ q ∈ [t.readQ, t.writeQ, t.secondary], q.overrun = false ∧ q.put = q.taken + q.chars := by
  have hcheck : ∀ (t : TtyStruct Vga) e, decide (Roomy t e) = true → Roomy t e :=
    fun _ _ h => of_decide_eq_true h
  have hrun : (run (fun t e => if decide (Roomy t e) then step t e else none)
      [.receive 10, .cook 2, .transmit] serialTty).map
      (fun t => (t.writeQ.put, t.writeQ.taken, t.writeQ.chars)) = some (2, 1, 1) := by
    decide +kernel
  obtain ⟨t, hs, hcounts⟩ := Option.map_eq_some_iff.mp hrun
  have hreach : Reaches step Roomy serialTty t := reaches_of_checked hcheck hs
  exact ⟨t, hreach, hcounts, kept_of_reaches hreach⟩

/-- A nested `con_write` also takes the A, and the outer one takes it again. -/
theorem answer_empties_queue :
    ∃ t u, Reaches step (fun _ _ => True) consoleTty t ∧
      Reaches step (fun _ _ => True) t u ∧
      t.writeQ.taken = t.writeQ.put + 1 ∧ t.writeQ.chars = 1023 ∧ t.writeQ.full = true ∧
      t.writeQ.overrun = false ∧ u.writeQ.overrun = true := by
  have hrun : (run step [.output [27, 0x5a, 65] false 10] consoleTty).map
      (fun t => ((t.writeQ.put, t.writeQ.taken, t.writeQ.chars), t.writeQ.full, t.writeQ.overrun,
        (run step [.receive 66, .cook 5] t).map fun u => u.writeQ.overrun)) =
      some ((11, 12, 1023), true, false, some true) := by
    decide +kernel
  obtain ⟨t, hs, heq⟩ := Option.map_eq_some_iff.mp hrun
  simp only [Prod.mk.injEq] at heq
  obtain ⟨⟨hput, htaken, hchars⟩, hfull, hoverrun, hnext⟩ := heq
  obtain ⟨u, hu, huover⟩ := Option.map_eq_some_iff.mp hnext
  refine ⟨t, u, reaches_of_run hs, reaches_of_run hu,
    ?_, hchars, hfull, hoverrun, huover⟩
  rw [hput, htaken]

end Linux001.Tty
