import Linux001.Console.Grid
import Linux001.Tty.Model

/-! Echo and output without an ESC Z for the console: a write changes the write queue and the
console only, and a round of `copy_to_cooked` edits the secondary queue as its character says. -/

namespace Linux001.Tty

open Function ProofKit Console

variable {σ : Type*} {tm : Termios} {p : Bool} {l : List UInt8} {n : Nat} {P : TtyStruct σ → Prop}
  {m : List UInt8}

namespace Queue

variable {q : Queue} {c : UInt8} {l : List UInt8}

def contents (q : Queue) : List UInt8 := q.ring.contents

/-- No character was lost: the queue has those put and not taken. -/
structure Sound (q : Queue) : Prop where
  overrun : q.overrun = false
  chars : q.put = q.taken + q.chars

theorem length_contents (q : Queue) : q.contents.length = q.chars := q.ring.length_contents

theorem chars_lt (q : Queue) : q.chars < 1024 := q.ring.size_lt

theorem left_eq (q : Queue) : q.left = 1023 - q.chars := q.ring.left_eq

theorem full_iff : q.full = true ↔ q.chars = 1023 := by
  have hlt := q.chars_lt
  rw [full, decide_eq_true_eq, left_eq]
  omega

theorem isEmpty_iff : q.isEmpty = true ↔ q.chars = 0 := by
  rw [isEmpty, decide_eq_true_eq, chars, RingBuffer.size_eq_zero_iff]

theorem chars_putch (h : ¬ q.full = true) : (q.putch c).chars = q.chars + 1 := by
  have hlt := q.chars_lt
  rw [full_iff] at h
  show (q.ring.push c).size = q.ring.size + 1
  rw [RingBuffer.size_push, if_pos]
  show q.chars + 1 < 1024
  omega

theorem contents_putch (h : ¬ q.full = true) : (q.putch c).contents = q.contents ++ [c] := by
  have hlt := q.chars_lt
  rw [full_iff] at h
  exact q.ring.contents_push (show q.chars + 1 < 1024 by omega)

theorem Sound.putch (hq : q.Sound) (h : ¬ q.full = true) (c : UInt8) : (q.putch c).Sound := by
  refine ⟨?_, ?_⟩
  · show (q.overrun || q.full) = false
    rw [hq.overrun, Bool.eq_false_iff.mpr h]
    rfl
  · rw [chars_putch h]
    show q.put + 1 = q.taken + (q.chars + 1)
    rw [hq.chars, Nat.add_assoc]

theorem chars_pos (h : ¬ q.isEmpty = true) : 0 < q.chars := by
  rw [isEmpty_iff] at h
  omega

theorem chars_getch (h : ¬ q.isEmpty = true) : q.getch.chars = q.chars - 1 :=
  q.ring.size_pop (chars_pos h)

theorem contents_eq_cons (h : ¬ q.isEmpty = true) : q.contents = q.first :: q.getch.contents :=
  q.ring.contents_eq_cons (chars_pos h)

theorem Sound.getch (hq : q.Sound) (h : ¬ q.isEmpty = true) : q.getch.Sound := by
  have hpos := chars_pos h
  refine ⟨hq.overrun, ?_⟩
  rw [chars_getch h]
  show q.put = q.taken + 1 + (q.chars - 1)
  rw [hq.chars]
  omega

theorem chars_dec (h : ¬ q.isEmpty = true) : q.dec.chars = q.chars - 1 :=
  q.ring.size_unpush (chars_pos h)

theorem contents_eq_concat (h : ¬ q.isEmpty = true) : q.contents = q.dec.contents ++ [q.last] :=
  q.ring.contents_eq_concat (chars_pos h)

theorem Sound.dec (hq : q.Sound) (h : ¬ q.isEmpty = true) : q.dec.Sound := by
  have hpos := chars_pos h
  have hchars := hq.chars
  have hdec := chars_dec h
  unfold Queue.dec at hdec ⊢
  refine ⟨hq.overrun, ?_⟩
  rw [hdec]
  show q.put = q.taken + 1 + (q.chars - 1)
  omega

theorem putAll_spec (h : l.length ≤ q.left) :
    (q.putAll l).contents = q.contents ++ l ∧ (q.putAll l).chars = q.chars + l.length ∧
      (q.Sound → (q.putAll l).Sound) := by
  induction l generalizing q with
  | nil => exact ⟨(List.append_nil _).symm, rfl, id⟩
  | cons c l ih =>
    rw [left_eq, List.length_cons] at h
    have hroom : ¬ q.full = true := by
      rw [full_iff]
      omega
    have hputch := chars_putch (c := c) hroom
    obtain ⟨hcontents, hchars, hsound⟩ := ih (q := q.putch c) (by rw [left_eq]; omega)
    refine ⟨?_, ?_, fun hq => hsound (hq.putch hroom c)⟩
    · show ((q.putch c).putAll l).contents = q.contents ++ c :: l
      rw [hcontents, contents_putch hroom, List.append_assoc]
      rfl
    · show ((q.putch c).putAll l).chars = q.chars + (c :: l).length
      rw [hchars, hputch, List.length_cons]
      omega

theorem data_dec (q : Queue) : q.dec.data = q.data := by
  unfold dec
  rfl

theorem Sound.setData (hq : q.Sound) (d : BitVec 64) : { q with data := d }.Sound :=
  ⟨hq.overrun, hq.chars⟩

/-- The queue after `tty_read` has taken a character, which may end a line. -/
def take (tm : Termios) (q : Queue) : Queue :=
  if tm.endsLine q.first then { q.getch with data := q.getch.data - 1 } else q.getch

theorem Sound.take (hq : q.Sound) (h : ¬ q.isEmpty = true) (tm : Termios) : (q.take tm).Sound := by
  unfold Queue.take
  split
  · exact (hq.getch h).setData _
  · exact hq.getch h

theorem contents_take (h : ¬ q.isEmpty = true) :
    (q.take tm).contents = q.contents.tail := by
  rw [contents_eq_cons h]
  unfold Queue.take
  split
  · rfl
  · rfl

theorem chars_empty (d : BitVec 64) : (empty d).chars = 0 := isEmpty_iff.mp rfl

theorem sound_empty (d : BitVec 64) : (empty d).Sound := by
  refine ⟨rfl, ?_⟩
  rw [chars_empty]
  rfl

theorem contents_eq_nil (h : q.chars = 0) : q.contents = [] := by
  rw [← List.length_eq_zero_iff, length_contents, h]

end Queue

/-- There is no Z after an ESC; `pending` if an ESC comes before. -/
def NoEscZ : (pending : Bool) → List UInt8 → Prop
  | _, [] => True
  | pending, c :: l => ¬ (pending = true ∧ c = 0x5a) ∧ NoEscZ (c = 27) l

def escAfter : (pending : Bool) → List UInt8 → Bool
  | pending, [] => pending
  | _, c :: l => escAfter (c = 27) l

theorem noEscZ_append :
    NoEscZ p (l ++ m) ↔ NoEscZ p l ∧ NoEscZ (escAfter p l) m := by
  induction l generalizing p with
  | nil => exact ⟨fun h => ⟨trivial, h⟩, fun h => h.2⟩
  | cons c l ih =>
    show (_ ∧ NoEscZ _ (l ++ m)) ↔ (_ ∧ NoEscZ _ l) ∧ NoEscZ (escAfter _ l) m
    rw [ih, and_assoc]

theorem NoEscZ.mono {p' : Bool} (h : NoEscZ p l) (hp : p' = true → p = true) :
    NoEscZ p' l := by
  cases l with
  | nil => trivial
  | cons c l => exact ⟨fun hc => h.1 ⟨hp hc.1, hc.2⟩, h.2⟩

theorem NoEscZ.of_initial (h : NoEscZ p m) (hl : l <+: m) :
    NoEscZ p l := by
  obtain ⟨r, rfl⟩ := hl
  exact (noEscZ_append.mp h).1

instance decidableNoEscZ : ∀ p l, Decidable (NoEscZ p l)
  | _, [] => isTrue trivial
  | _, c :: l =>
    have := decidableNoEscZ (c = 27) l
    inferInstanceAs (Decidable (_ ∧ _))

section State

variable {v : Vt σ} {erase c : UInt8}

theorem esc_of_ground (h : Console.ground erase c = .escape) : c = 27 := by
  by_contra hc
  rw [Console.ground, if_neg (c := c = 27) hc] at h
  split_ifs at h

variable [Screen σ]

theorem state_command (v : Vt σ) (k : Csi) : (v.command k).state = 0 := by
  rcases Vt.parsed_command v k with h | h
  · rw [h]
    rfl
  · exact h.1

theorem state_parameter (v : Vt σ) (c : UInt8) :
    (v.parameter c).state = v.state ∨ (v.parameter c).state = 0 := by
  unfold Vt.parameter
  split
  · exact .inl rfl
  · split
    · exact .inl rfl
    · exact .inr (state_command v _)

theorem state_bracket (v : Vt σ) (c : UInt8) :
    (v.bracket c).state = 3 ∨ (v.bracket c).state = 0 := by
  simp only [Vt.bracket]
  split
  · exact .inl rfl
  · exact state_parameter _ c

theorem esc_of_state (h : (v.write erase c).state = 1) : c = 27 := by
  unfold Vt.write at h
  split at h
  · next hstate =>
    revert h
    cases hc : Console.ground erase c with
    | escape => exact fun _ => esc_of_ground hc
    | _ =>
      intro h
      exact absurd (hstate.symm.trans h) (by decide)
  · have := (Vt.parsed_escape v (Console.escape c)).imp And.left And.left
    omega
  · have := state_bracket v c
    omega
  · have := state_parameter v c
    omega
  · have := state_command v (csi c)
    omega
  · next _ hne _ _ _ => exact absurd h hne

end State

namespace TtyStruct

variable [Screen σ] {t : TtyStruct σ} {f : Call σ}

def esc (t : TtyStruct σ) : Bool := t.vt.state = 1

theorem conLoop_quiet (hn : t.writeQ.chars = n) (hp : t.esc = true → p = true)
    (hz : NoEscZ p t.writeQ.contents) :
    ∃ q v, conLoop f n t = some { t with writeQ := q, vt := v } ∧ q.chars = 0 ∧
      (t.writeQ.Sound → q.Sound) ∧ (v.state = 1 → escAfter p t.writeQ.contents = true) := by
  induction n generalizing t p with
  | zero =>
    refine ⟨t.writeQ, t.vt, rfl, hn, id, fun hv => ?_⟩
    rw [Queue.contents_eq_nil hn]
    exact hp (decide_eq_true hv)
  | succ n ih =>
    have hne : ¬ t.writeQ.isEmpty = true := by
      rw [Queue.isEmpty_iff]
      omega
    rw [Queue.contents_eq_cons hne] at hz ⊢
    have hquiet : ¬ t.answers t.writeQ.first = true := by
      intro hans
      have hans := of_decide_eq_true hans
      exact hz.1 ⟨hp (decide_eq_true hans.1), hans.2⟩
    rw [conLoop, if_neg hquiet]
    obtain ⟨q, v, hloop, hq, hsound, hesc⟩ := ih
      (t := { t with
        writeQ := t.writeQ.getch
        vt := t.vt.write t.termios.verase t.writeQ.first })
      (p := t.writeQ.first = 27) (by rw [Queue.chars_getch hne]; omega)
      (fun h => decide_eq_true (esc_of_state (of_decide_eq_true h))) hz.2
    exact ⟨q, v, hloop, hq, fun h => hsound (h.getch hne), hesc⟩

theorem echo_empties (hc : t.console = true) (hecho : t.termios.echo = true)
    (hroom : l.length ≤ t.writeQ.left) (hz : NoEscZ t.esc (t.writeQ.contents ++ l)) :
    ∃ q v, t.echo f l = some { t with writeQ := q, vt := v } ∧ q.chars = 0 ∧
      (t.writeQ.Sound → q.Sound) ∧
        (v.state = 1 → escAfter t.esc (t.writeQ.contents ++ l) = true) := by
  obtain ⟨hcontents, -, hput⟩ := Queue.putAll_spec hroom
  rw [← hcontents] at hz ⊢
  rw [echo, if_pos hecho, write, if_pos (by exact hc)]
  obtain ⟨q, v, hloop, hq, hsound, hesc⟩ :=
    conLoop_quiet (t := { t with writeQ := t.writeQ.putAll l }) (f := f) rfl id hz
  exact ⟨q, v, hloop, hq, fun hs => hsound (hput hs), hesc⟩

/-- The echo of a character in the read queue, if it is not erased by another one. -/
def echoOf (tm : Termios) (c : UInt8) : List UInt8 :=
  match tm.action c with
  | .queue c => tm.echoChars c
  | _ => []

/-- There is room for an echo, and no ESC Z to be written. -/
structure Quiet (t : TtyStruct σ) : Prop where
  room : 2 ≤ t.writeQ.left
  noEscZ : NoEscZ t.esc (t.writeQ.contents ++ t.readQ.contents.flatMap (echoOf t.termios))

omit [Screen σ] in
theorem quiet_iff : t.Quiet ↔ 2 ≤ t.writeQ.left ∧
    NoEscZ t.esc (t.writeQ.contents ++ t.readQ.contents.flatMap (echoOf t.termios)) :=
  ⟨fun h => ⟨h.room, h.noEscZ⟩, fun h => ⟨h.1, h.2⟩⟩

instance : Decidable t.Quiet := decidable_of_iff _ quiet_iff.symm

def edit (tm : Termios) (q : Queue) (c : UInt8) : Queue :=
  match tm.action c with
  | .erase => if q.isEmpty ∨ tm.endsLine q.last then q else q.dec
  | .queue c => (if tm.endsLine c then { q with data := q.data + 1 } else q).putch c
  | _ => q

/-- After an echo: at most two more on a serial line, none on the console. -/
def Echoed (t : TtyStruct σ) (q : Queue) : Prop :=
  if t.console then q = t.writeQ ∨ q.chars = 0 ∧ (t.writeQ.Sound → q.Sound)
  else ∃ l : List UInt8, l.length ≤ 2 ∧ (t.termios.echo = false → l = []) ∧ q = t.writeQ.putAll l

omit [Screen σ] in
theorem echoed_self (t : TtyStruct σ) : t.Echoed t.writeQ := by
  rw [Echoed]
  split
  · exact .inl rfl
  · exact ⟨[], Nat.zero_le 2, fun _ => rfl, rfl⟩

theorem echo_quiet (hl : l.length ≤ 2) (hquiet : t.console = true → t.termios.echo = true →
      2 ≤ t.writeQ.left ∧ NoEscZ t.esc (t.writeQ.contents ++ (l ++ m))) :
    ∃ q v, t.echo f l = some { t with writeQ := q, vt := v } ∧ t.Echoed q ∧
      (t.console = true → t.termios.echo = true →
        2 ≤ q.left ∧ NoEscZ (v.state = 1) (q.contents ++ m)) := by
  rw [echo]
  split
  · next hecho =>
    rw [write]
    by_cases hc : t.console = true
    · obtain ⟨hroom, hz⟩ := hquiet hc hecho
      rw [← List.append_assoc, noEscZ_append] at hz
      obtain ⟨q, v, hloop, hq, hsound, hesc⟩ := echo_empties (f := f) hc hecho (hl.trans hroom) hz.1
      rw [echo, if_pos hecho, write] at hloop
      refine ⟨q, v, hloop, ?_, fun _ _ => ⟨?_, ?_⟩⟩
      · rw [Echoed, if_pos hc]
        exact .inr ⟨hq, hsound⟩
      · rw [Queue.left_eq, hq]
        decide
      · rw [Queue.contents_eq_nil hq]
        exact hz.2.mono fun h => hesc (of_decide_eq_true h)
    · rw [if_neg hc]
      refine ⟨_, t.vt, rfl, ?_, fun h => absurd h hc⟩
      rw [Echoed, if_neg hc]
      exact ⟨l, hl, fun h => absurd hecho (Bool.eq_false_iff.mp h), rfl⟩
  · next hecho =>
    refine ⟨t.writeQ, t.vt, rfl, ?_, fun _ h => absurd h hecho⟩
    exact t.echoed_self

theorem noEscZ_eraseChars {w rest : List UInt8} (h : NoEscZ p (w ++ rest)) (c : UInt8) :
    NoEscZ p (w ++ (Termios.eraseChars c ++ rest)) := by
  rw [noEscZ_append] at h ⊢
  refine ⟨h.1, ?_⟩
  have hrest : NoEscZ false rest := h.2.mono fun h => nomatch h
  unfold Termios.eraseChars
  split
  · exact ⟨fun h => absurd h.2 (by decide), by decide, hrest⟩
  · exact ⟨fun h => absurd h.2 (by decide), hrest⟩

theorem length_echoChars (tm : Termios) (c : UInt8) : (tm.echoChars c).length ≤ 2 := by
  unfold Termios.echoChars
  split
  · exact le_rfl
  · split
    · split
      · exact le_rfl
      · exact Nat.zero_le 2
    · exact Nat.le_succ 1

theorem length_eraseChars (c : UInt8) : (Termios.eraseChars c).length ≤ 2 := by
  unfold Termios.eraseChars
  split
  · exact le_rfl
  · exact Nat.le_succ 1

theorem queueChar_eq (f : Call σ) (t : TtyStruct σ) (c : UInt8) : t.queueChar f c =
    (echo f { t with
      secondary := if t.termios.endsLine c then
        { t.secondary with data := t.secondary.data + 1 } else t.secondary }
      (t.termios.echoChars c)).map fun t => { t with secondary := t.secondary.putch c } := by
  rw [queueChar]
  split
  · rfl
  · rfl

/-- A character is taken, edits the secondary queue, and is echoed. -/
structure Round (t t' : TtyStruct σ) : Prop where
  eq : ∃ v b, t' =
    { t with
      readQ := t.readQ.getch
      writeQ := t'.writeQ
      secondary := edit t.termios t.secondary t.readQ.first
      vt := v
      stopped := b
      log := t.log ++ [.input t.termios t.readQ.first] }
  echoed : t.Echoed t'.writeQ

theorem copyChar_quiet (hne : ¬ t.readQ.isEmpty = true)
    (hquiet : t.console = true → t.termios.echo = true → t.Quiet) :
    ∃ t', t.copyChar f = some t' ∧ Round t t' ∧
      (t.console = true → t.termios.echo = true → t'.Quiet) := by
  have hread := Queue.contents_eq_cons hne
  have hquiet' : t.console = true → t.termios.echo = true → 2 ≤ t.writeQ.left ∧
      NoEscZ t.esc (t.writeQ.contents ++ (echoOf t.termios t.readQ.first ++
        t.readQ.getch.contents.flatMap (echoOf t.termios))) := by
    intro hc he
    have h := (hquiet hc he).noEscZ
    rw [hread, List.flatMap_cons] at h
    exact ⟨(hquiet hc he).room, h⟩
  -- a round without echo
  have hsilent : ∀ b, echoOf t.termios t.readQ.first = [] →
      edit t.termios t.secondary t.readQ.first = t.secondary →
      Round t { t.nextChar with stopped := b } ∧
        (t.console = true → t.termios.echo = true →
          Quiet { t.nextChar with stopped := b }) := by
    intro b hecho hedit
    refine ⟨⟨⟨t.vt, b, ?_⟩, t.echoed_self⟩, fun hc he => ?_⟩
    · rw [hedit]
      rfl
    · obtain ⟨hroom, hz⟩ := hquiet' hc he
      rw [hecho] at hz
      exact ⟨hroom, hz⟩
  rw [copyChar]
  cases haction : t.termios.action t.readQ.first with
  | drop =>
    obtain ⟨hround, hq⟩ := hsilent t.stopped (by rw [echoOf, haction]) (by rw [edit, haction])
    exact ⟨_, rfl, hround, hq⟩
  | stop =>
    obtain ⟨hround, hq⟩ := hsilent true (by rw [echoOf, haction]) (by rw [edit, haction])
    exact ⟨_, rfl, hround, hq⟩
  | start =>
    obtain ⟨hround, hq⟩ := hsilent false (by rw [echoOf, haction]) (by rw [edit, haction])
    exact ⟨_, rfl, hround, hq⟩
  | erase =>
    have hecho : echoOf t.termios t.readQ.first = [] := by rw [echoOf, haction]
    by_cases hno : t.secondary.isEmpty ∨ t.termios.endsLine t.secondary.last
    · obtain ⟨hround, hq⟩ := hsilent t.stopped hecho (by rw [edit, haction]; exact if_pos hno)
      refine ⟨_, ?_, hround, hq⟩
      exact if_pos hno
    have hedit : edit t.termios t.secondary t.readQ.first = t.secondary.dec := by
      rw [edit, haction]
      exact if_neg hno
    obtain ⟨q, v, hecho', hechoed, hq⟩ := echo_quiet (t := t.nextChar) (f := f)
      (m := t.readQ.getch.contents.flatMap (echoOf t.termios))
      (length_eraseChars t.secondary.last) fun hc he => by
        obtain ⟨hroom, hz⟩ := hquiet' hc he
        rw [hecho] at hz
        exact ⟨hroom, noEscZ_eraseChars hz _⟩
    refine ⟨{ t.nextChar with writeQ := q, vt := v, secondary := t.secondary.dec }, ?_,
      ⟨⟨v, t.stopped, ?_⟩, hechoed⟩, fun hc he => ?_⟩
    · show (if t.secondary.isEmpty ∨ t.termios.endsLine t.secondary.last then _
        else Option.map _ (t.nextChar.echo f (Termios.eraseChars t.secondary.last))) = _
      rw [if_neg hno, hecho', Option.map_some]
      rfl
    · rw [hedit]
      rfl
    · exact ⟨(hq hc he).1, (hq hc he).2⟩
  | queue c =>
    have hecho : echoOf t.termios t.readQ.first = t.termios.echoChars c := by rw [echoOf, haction]
    have hedit : edit t.termios t.secondary t.readQ.first =
        (if t.termios.endsLine c then { t.secondary with data := t.secondary.data + 1 }
          else t.secondary).putch c := by
      rw [edit, haction]
    rw [hecho] at hquiet'
    obtain ⟨q, v, hecho', hechoed, hq⟩ := echo_quiet
      (t := { t.nextChar with
        secondary := if t.termios.endsLine c then
          { t.secondary with data := t.secondary.data + 1 } else t.secondary })
      (f := f) (length_echoChars t.termios c) hquiet'
    refine ⟨{ t.nextChar with
      writeQ := q
      vt := v
      secondary := edit t.termios t.secondary t.readQ.first }, ?_, ⟨⟨v, t.stopped, rfl⟩, hechoed⟩,
      fun hc he => ⟨(hq hc he).1, (hq hc he).2⟩⟩
    rw [hedit]
    exact (queueChar_eq f t.nextChar c).trans (congrArg (Option.map _) hecho')

theorem copyLoop_quiet
    (hP : ∀ t t', ¬ t.readQ.isEmpty = true → ¬ t.secondary.full = true → Round t t' → P t → P t')
    {t' : TtyStruct σ} (hloop : copyLoop f n t = some t')
    (hquiet : t.console = true → t.termios.echo = true → t.Quiet) (h : P t) : P t' := by
  induction n generalizing t with
  | zero => cases hloop
  | succ n ih =>
    rw [copyLoop] at hloop
    split at hloop
    · cases hloop
      exact h
    rename_i hgo
    obtain ⟨hne, hroom⟩ := not_or.mp hgo
    obtain ⟨u, hu, hround, hquiet'⟩ := copyChar_quiet (f := f) hne hquiet
    rw [hu] at hloop
    have hsame : u.console = t.console ∧ u.termios = t.termios := by
      obtain ⟨v, b, heq⟩ := hround.eq
      rw [heq]
      exact ⟨rfl, rfl⟩
    refine ih hloop (fun hc he => hquiet' ?_ ?_) (hP t u hne hroom hround h)
    · exact hsame.1.symm.trans hc
    · rw [← hsame.2]
      exact he

theorem edit_sound {q : Queue} {c : UInt8} (hq : q.Sound)
    (hroom : ¬ q.full = true) : (edit tm q c).Sound := by
  unfold edit
  cases tm.action c with
  | drop | stop | start => exact hq
  | erase =>
    dsimp only
    split
    · exact hq
    · next hno => exact hq.dec (not_or.mp hno).1
  | queue c =>
    dsimp only
    split
    · exact (hq.setData (q.data + 1)).putch hroom c
    · exact hq.putch hroom c

def takeChar (t : TtyStruct σ) : TtyStruct σ :=
  { t with secondary := t.secondary.take t.termios, log := t.log ++ [.take] }

omit [Screen σ] in
theorem drain_keeps
    (hP : ∀ t, ¬ t.secondary.isEmpty = true → P t → P t.takeChar) (h : P t) (nr : Nat) :
    P (t.drain nr) := by
  induction nr generalizing t with
  | zero => exact h
  | succ nr ih =>
    rw [drain]
    split
    · exact h
    · next hne =>
      have htake := hP t hne h
      dsimp only
      split
      · exact htake
      · exact ih htake

def postAll (tm : Termios) : (crFlag : Bool) → List UInt8 → List UInt8
  | _, [] => []
  | crFlag, c :: l =>
    (if (post tm crFlag c).1 then [13] else []) ++ (post tm crFlag c).2 :: postAll tm false l

omit [Screen σ] in
theorem post_snd (tm : Termios) (b b' : Bool) (c : UInt8) : (post tm b c).2 = (post tm b' c).2 := by
  unfold post
  split
  · rfl
  · rfl

omit [Screen σ] in
theorem fill_spec (bytes : List UInt8) (t : TtyStruct σ) :
    ∃ q b, t.fill bytes = { t with writeQ := q, crFlag := b } ∧
      q.contents <+: t.writeQ.contents ++ postAll t.termios t.crFlag bytes ∧
      (t.writeQ.Sound → q.Sound) := by
  induction bytes generalizing t with
  | nil => exact ⟨t.writeQ, t.crFlag, rfl, List.prefix_append _ _, id⟩
  | cons c rest ih =>
    rw [fill]
    split
    · exact ⟨t.writeQ, t.crFlag, rfl, List.prefix_append _ _, id⟩
    rename_i hroom
    rw [postAll]
    split
    · have hput := Queue.contents_putch (c := 13) hroom
      simp only
      split
      · refine ⟨_, _, rfl, ?_, fun h => h.putch hroom 13⟩
        rw [hput, ← List.append_assoc]
        exact List.prefix_append _ _
      rename_i hroom'
      obtain ⟨q, b, heq, hprefix, hsound⟩ := ih
        { t with
          writeQ := (t.writeQ.putch 13).putch (post t.termios true c).2
          crFlag := false }
      refine ⟨q, b, heq, ?_, fun h => hsound ((h.putch hroom 13).putch hroom' _)⟩
      rw [show (TtyStruct.writeQ { t with
          writeQ := (t.writeQ.putch 13).putch (post t.termios true c).2
          crFlag := false }) = (t.writeQ.putch 13).putch (post t.termios true c).2 from rfl,
        Queue.contents_putch hroom', hput, post_snd t.termios true t.crFlag] at hprefix
      simpa using hprefix
    · obtain ⟨q, b, heq, hprefix, hsound⟩ := ih
        { t with writeQ := t.writeQ.putch (post t.termios t.crFlag c).2, crFlag := false }
      refine ⟨q, b, heq, ?_, fun h => hsound (h.putch hroom _)⟩
      rw [show (TtyStruct.writeQ { t with
          writeQ := t.writeQ.putch (post t.termios t.crFlag c).2
          crFlag := false }) = t.writeQ.putch (post t.termios t.crFlag c).2 from rfl,
        Queue.contents_putch hroom] at hprefix
      simpa using hprefix

theorem write_quiet (hz : t.console = true → NoEscZ t.esc t.writeQ.contents) :
    ∃ q v, t.write f = some { t with writeQ := q, vt := v } ∧ (t.writeQ.Sound → q.Sound) := by
  rw [write]
  split
  · next hc =>
    obtain ⟨q, v, hloop, -, hsound, -⟩ := conLoop_quiet (f := f) rfl id (hz hc)
    exact ⟨q, v, hloop, hsound⟩
  · exact ⟨t.writeQ, t.vt, rfl, id⟩

end TtyStruct

variable [Screen σ] {t t' : TtyStruct σ} {e : Event}

/-- The console gets no ESC Z in this step, and has room for the echo. -/
def Calm (t : TtyStruct σ) : Event → Prop
  | .cook _ => t.console = true → t.termios.echo = true → t.Quiet
  | .output bytes false _ =>
    t.console = true →
      NoEscZ t.esc (t.writeQ.contents ++ TtyStruct.postAll t.termios t.crFlag bytes)
  | .conWrite _ => NoEscZ t.esc t.writeQ.contents
  | _ => True

instance (t : TtyStruct σ) (e : Event) : Decidable (Calm t e) :=
  match e with
  | .cook _ => inferInstanceAs (Decidable (_ → _ → _))
  | .output _ false _ => inferInstanceAs (Decidable (_ → _))
  | .conWrite _ => inferInstanceAs (Decidable (NoEscZ _ _))
  | .receive _ | .read _ | .output _ true _ | .transmit | .settings _ | .crFlag _ => isTrue trivial

theorem step_cases (hcalm : Calm t e) (hs : step t e = some t') :
    (∃ c, ¬ t.readQ.full = true ∧
      t' = { t with readQ := t.readQ.putch c, entered := t.entered ++ [c] }) ∨
    (∃ n f, e = .cook (n + 1) ∧ TtyStruct.copyLoop f (n + 1) t = some t') ∨
    (∃ nr, t' = t.drain nr) ∨
    (∃ tm, e = .settings tm ∧ t' = { t with termios := tm }) ∨
    ∃ q v b, t' = { t with writeQ := q, vt := v, crFlag := b } ∧ (t.writeQ.Sound → q.Sound) := by
  have hsame : ∃ q v b, t = { t with writeQ := q, vt := v, crFlag := b } ∧
      (t.writeQ.Sound → q.Sound) := ⟨_, _, _, rfl, id⟩
  cases e with
  | receive c =>
    rw [step] at hs
    split at hs
    · cases hs
      exact .inr (.inr (.inr (.inr hsame)))
    · next hroom => exact .inl ⟨c, hroom, (Option.some.inj hs).symm⟩
  | cook fuel =>
    cases fuel with
    | zero => cases hs
    | succ n => exact .inr (.inl ⟨n, _, rfl, hs⟩)
  | read nr =>
    rw [step] at hs
    split at hs
    · cases hs
      exact .inr (.inr (.inr (.inr hsame)))
    · exact .inr (.inr (.inl ⟨nr, (Option.some.inj hs).symm⟩))
  | output bytes killed fuel =>
    obtain ⟨q, b, hfill, hprefix, hsound⟩ := TtyStruct.fill_spec bytes t
    rw [step] at hs
    cases killed with
    | true =>
      rw [if_pos rfl, hfill] at hs
      exact .inr (.inr (.inr (.inr ⟨q, t.vt, b, (Option.some.inj hs).symm, hsound⟩)))
    | false =>
      rw [if_neg Bool.false_ne_true, hfill] at hs
      obtain ⟨q', v, hwrite, hsound'⟩ := TtyStruct.write_quiet
        (t := { t with writeQ := q, crFlag := b }) (f := TtyStruct.respond fuel)
        fun hc => (hcalm hc).of_initial hprefix
      rw [hwrite] at hs
      exact .inr (.inr (.inr (.inr ⟨q', v, b, (Option.some.inj hs).symm,
        fun h => hsound' (hsound h)⟩)))
  | conWrite fuel =>
    obtain ⟨-, hs⟩ := Option.ite_none_right_eq_some.mp hs
    obtain ⟨q, v, hwrite, hsound⟩ := TtyStruct.write_quiet
      (f := TtyStruct.respond fuel) fun _ => hcalm
    rw [hwrite] at hs
    exact .inr (.inr (.inr (.inr ⟨q, v, t.crFlag, (Option.some.inj hs).symm, hsound⟩)))
  | transmit =>
    obtain ⟨-, hs⟩ := Option.ite_none_left_eq_some.mp hs
    split at hs
    · cases hs
      exact .inr (.inr (.inr (.inr hsame)))
    · next hne =>
      exact .inr (.inr (.inr (.inr ⟨t.writeQ.getch, t.vt, t.crFlag, (Option.some.inj hs).symm,
        fun h => h.getch hne⟩)))
  | settings tm => exact .inr (.inr (.inr (.inl ⟨tm, rfl, (Option.some.inj hs).symm⟩)))
  | crFlag b =>
    exact .inr (.inr (.inr (.inr ⟨t.writeQ, t.vt, b, (Option.some.inj hs).symm, id⟩)))

end Linux001.Tty
