import Linux001.Tty.Discipline

/-! The three terminals of `tty_table` and the processes that write to them. The static `cr_flag` of
`tty_write`, which tells that the carriage return before a newline is already in the queue, is one
for all the terminals. -/

namespace Linux001.Tty

open Function ProofKit Console TtyStruct

variable {σ : Type*}

/-- A call of `tty_write`; `asleep` if it is in `sleep_if_full`. -/
structure Write where
  channel : Fin 3
  bytes : List UInt8
  asleep : Bool

/-- The terminals and the calls; `crFlag` is the static of `tty_write`, set by the channel `last`,
and `streams` what each got. -/
structure World (σ : Type*) where
  ttys : Fin 3 → TtyStruct σ
  crFlag : Bool
  last : Fin 3
  calls : Nat → Option Write
  streams : Fin 3 → List UInt8

/-- A process calls `tty_write` or goes on, or a terminal changes. -/
inductive Schedule
  | call (p : Nat) (ch : Fin 3) (bytes : List UInt8)
  | resume (p : Nat) (ch : Fin 3) (signal : Bool) (fuel : Nat)
  | other (ch : Fin 3) (e : Event)

def Event.outside : Event → Bool
  | .output .. | .crFlag _ => false
  | _ => true

def Schedule.on (ch : Fin 3) : Schedule → Bool
  | .call _ ch' _ | .resume _ ch' _ _ | .other ch' _ => ch' = ch

/-- The characters that the inner loop of `tty_write` puts, and the rest. -/
def TtyStruct.fillTrace : List UInt8 → TtyStruct σ → List UInt8 × List UInt8
  | [], _ => ([], [])
  | c :: rest, t =>
    if t.writeQ.full then ([], c :: rest)
    else if (post t.termios t.crFlag c).1 then
      let t := { t with writeQ := t.writeQ.putch 13, crFlag := true }
      if t.writeQ.full then ([13], c :: rest)
      else
        let c' := (post t.termios t.crFlag c).2
        let (out, left) := fillTrace rest { t with writeQ := t.writeQ.putch c', crFlag := false }
        (13 :: c' :: out, left)
    else
      let c' := (post t.termios t.crFlag c).2
      let (out, left) := fillTrace rest { t with writeQ := t.writeQ.putch c', crFlag := false }
      (c' :: out, left)

namespace World

def waits (w : World σ) (c : Write) : Bool :=
  if c.asleep then (w.ttys c.channel).writeQ.left < 128 else (w.ttys c.channel).writeQ.full

structure Idle (w : World σ) : Prop where
  crFlag : w.crFlag = false
  calls : ∀ p, w.calls p = none

/-- A process about to put characters finds `cr_flag` as its channel left it. -/
def Undisturbed (w : World σ) : Schedule → Prop
  | .resume p _ false _ =>
    ∀ c, w.calls p = some c → w.waits c = false → w.crFlag = true → w.last = c.channel
  | _ => True

instance (w : World σ) : (e : Schedule) → Decidable (w.Undisturbed e)
  | .resume p _ false _ =>
    inferInstanceAs (Decidable (∀ c ∈ w.calls p, w.waits c = false → w.crFlag = true →
      w.last = c.channel))
  | .resume _ _ true _ | .call .. | .other .. => isTrue trivial

variable [Screen σ]

def round (w : World σ) (p : Nat) (c : Write) (fuel : Nat) : Option (World σ) :=
  let t := { w.ttys c.channel with crFlag := w.crFlag }
  let (out, left) := t.fillTrace c.bytes
  let t' := t.fill c.bytes
  ({ t' with crFlag := false }.write (respond fuel)).map fun u =>
    { ttys := update w.ttys c.channel u
      crFlag := t'.crFlag
      last := c.channel
      calls := update w.calls p (if left = [] then none else some ⟨c.channel, left, false⟩)
      streams := update w.streams c.channel (w.streams c.channel ++ out) }

def proceed (w : World σ) (p : Nat) (c : Write) (signal : Bool) (fuel : Nat) : Option (World σ) :=
  if signal then some { w with calls := update w.calls p none }
  else if w.waits c then some { w with calls := update w.calls p (some { c with asleep := true }) }
  else w.round p c fuel

def step (w : World σ) : Schedule → Option (World σ)
  | .call p ch bytes =>
    match w.calls p with
    | some _ => none
    | none =>
      -- `while (nr>0)` is not entered for an empty buffer
      some { w with
        calls := update w.calls p (if bytes = [] then none else some ⟨ch, bytes, false⟩) }
  | .resume p ch signal fuel =>
    match w.calls p with
    | none => none
    | some c => if c.channel = ch then w.proceed p c signal fuel else none
  | .other ch e =>
    if e.outside then (Tty.step (w.ttys ch) e).map fun t => { w with ttys := update w.ttys ch t }
    else none

end World

namespace World

variable {w w' x : World σ} {ch : Fin 3} {e : Schedule}

/-- `x` is what `w` would be if nothing had happened to the other channels. -/
structure Alone (ch : Fin 3) (w x : World σ) : Prop where
  ttys : x.ttys ch = w.ttys ch
  streams : x.streams ch = w.streams ch
  calls : ∀ p, x.calls p = (w.calls p).filter (·.channel = ch)
  crFlag : x.crFlag = (w.crFlag && decide (w.last = ch))

theorem Idle.alone (h : w.Idle) (ch : Fin 3) : Alone ch w w where
  ttys := rfl
  streams := rfl
  calls p := by rw [h.calls p]; rfl
  crFlag := by rw [h.crFlag]; rfl

variable (h : Alone ch w x)
include h

theorem Alone.call_eq {p : Nat} {c : Write} (hc : w.calls p = some c) (hch : c.channel = ch) :
    x.calls p = some c := by
  rw [h.calls, hc, Option.filter_some, if_pos (decide_eq_true hch)]

theorem Alone.calls_update {p : Nat} {a : Option Write} (ha : ∀ c ∈ a, c.channel = ch) (q : Nat) :
    update x.calls p a q = (update w.calls p a q).filter (·.channel = ch) := by
  by_cases hq : q = p
  · rw [hq, update_self, update_self]
    cases a with
    | none => rfl
    | some c => rw [Option.filter_some, if_pos (decide_eq_true (ha c rfl))]
  · rw [update_of_ne hq, update_of_ne hq, h.calls]

theorem Alone.calls_other {p : Nat} {a : Option Write} (hp : ∀ c ∈ w.calls p, c.channel ≠ ch)
    (ha : ∀ c ∈ a, c.channel ≠ ch) (q : Nat) :
    x.calls q = (update w.calls p a q).filter (·.channel = ch) := by
  have hnone : ∀ b : Option Write, (∀ c ∈ b, c.channel ≠ ch) →
      b.filter (·.channel = ch) = none := by
    intro b hb
    cases b with
    | none => rfl
    | some c => rw [Option.filter_some, if_neg (by simpa using hb c rfl)]
  by_cases hq : q = p
  · rw [hq, update_self, h.calls, hnone _ hp, hnone _ ha]
  · rw [update_of_ne hq, h.calls]

variable [Screen σ]

theorem Alone.round {p fuel : Nat} {c : Write} (hch : c.channel = ch)
    (hflag : w.crFlag = true → w.last = c.channel) (hs : w.round p c fuel = some w') :
    ∃ y, x.round p c fuel = some y ∧ Alone ch w' y := by
  subst hch
  have hcr : x.crFlag = w.crFlag := by
    rw [h.crFlag]
    cases hw : w.crFlag with
    | false => rfl
    | true => rw [hflag hw]; simp
  rw [World.round] at hs ⊢
  rw [h.ttys, hcr]
  obtain ⟨u, hu, rfl⟩ := Option.map_eq_some_iff.mp hs
  refine ⟨_, Option.map_eq_some_iff.mpr ⟨u, hu, rfl⟩, ?_, ?_, ?_, ?_⟩
  · simp only [update_self]
  · simp only [update_self, h.streams]
  · refine h.calls_update fun d hd => ?_
    split at hd
    · cases hd
    · cases hd
      rfl
  · simp

theorem Alone.proceed {p fuel : Nat} {c : Write} {signal : Bool} (hch : c.channel = ch)
    (hflag : signal = false → w.waits c = false → w.crFlag = true → w.last = c.channel)
    (hs : w.proceed p c signal fuel = some w') :
    ∃ y, x.proceed p c signal fuel = some y ∧ Alone ch w' y := by
  have hwaits : x.waits c = w.waits c := by
    rw [waits, waits, hch, h.ttys]
  rw [World.proceed] at hs ⊢
  rw [hwaits]
  split at hs
  · next hsig =>
    cases hs
    rw [if_pos hsig]
    exact ⟨_, rfl, h.ttys, h.streams, h.calls_update (fun _ hd => nomatch hd), h.crFlag⟩
  rename_i hsig
  rw [if_neg hsig]
  split at hs
  · next hwait =>
    cases hs
    rw [if_pos hwait]
    refine ⟨_, rfl, h.ttys, h.streams, h.calls_update (fun d hd => ?_), h.crFlag⟩
    cases hd
    exact hch
  · next hwait =>
    rw [if_neg hwait]
    exact h.round hch (hflag (by simpa using hsig) (by simpa using hwait)) hs

theorem Alone.step_on (hok : w.Undisturbed e) (hs : w.step e = some w') (hon : e.on ch = true) :
    ∃ y, x.step e = some y ∧ Alone ch w' y := by
  cases e with
  | call p ch' bytes =>
    obtain rfl : ch' = ch := of_decide_eq_true hon
    rw [step] at hs ⊢
    cases hp : w.calls p with
    | some c => rw [hp] at hs; cases hs
    | none =>
      rw [hp] at hs
      cases hs
      rw [show x.calls p = none by rw [h.calls, hp]; rfl]
      refine ⟨_, rfl, h.ttys, h.streams, h.calls_update fun d hd => ?_, h.crFlag⟩
      split at hd
      · cases hd
      · cases hd
        rfl
  | resume p ch' signal fuel =>
    obtain rfl : ch' = ch := of_decide_eq_true hon
    rw [step] at hs ⊢
    cases hp : w.calls p with
    | none => rw [hp] at hs; cases hs
    | some c =>
      rw [hp] at hs
      obtain ⟨hch, hs⟩ := Option.ite_none_right_eq_some.mp hs
      rw [h.call_eq hp hch]
      dsimp only
      rw [if_pos hch]
      refine h.proceed hch (fun hsig => ?_) hs
      subst hsig
      exact hok c hp
  | other ch' e =>
    obtain rfl : ch' = ch := of_decide_eq_true hon
    rw [step] at hs ⊢
    obtain ⟨hown, hs⟩ := Option.ite_none_right_eq_some.mp hs
    obtain ⟨t, ht, rfl⟩ := Option.map_eq_some_iff.mp hs
    rw [if_pos hown, h.ttys, ht]
    exact ⟨_, rfl, by simp only [update_self], h.streams, h.calls, h.crFlag⟩

theorem Alone.round_off {p fuel : Nat} {c : Write} (hp : w.calls p = some c) (hch : c.channel ≠ ch)
    (hflag : w.crFlag = true → w.last = c.channel) (hs : w.round p c fuel = some w') :
    Alone ch w' x := by
  obtain ⟨u, hu, rfl⟩ := Option.map_eq_some_iff.mp hs
  have hother : ∀ d ∈ w.calls p, d.channel ≠ ch := by
    intro d hd
    cases hp.symm.trans hd
    exact hch
  refine ⟨?_, ?_, h.calls_other hother fun d hd => ?_, ?_⟩
  · rw [h.ttys]
    exact (update_of_ne hch.symm _ _).symm
  · rw [h.streams]
    exact (update_of_ne hch.symm _ _).symm
  · split at hd
    · cases hd
    · cases hd
      exact hch
  · rw [h.crFlag, decide_eq_false hch, Bool.and_false]
    cases hw : w.crFlag with
    | false => rfl
    | true => rw [hflag hw, decide_eq_false hch]; rfl

theorem Alone.proceed_off {p fuel : Nat} {c : Write} {signal : Bool} (hp : w.calls p = some c)
    (hch : c.channel ≠ ch)
    (hflag : signal = false → w.waits c = false → w.crFlag = true → w.last = c.channel)
    (hs : w.proceed p c signal fuel = some w') : Alone ch w' x := by
  have hother : ∀ d ∈ w.calls p, d.channel ≠ ch := by
    intro d hd
    cases hp.symm.trans hd
    exact hch
  rw [World.proceed] at hs
  split at hs
  · cases hs
    exact ⟨h.ttys, h.streams, h.calls_other hother (fun _ hd => nomatch hd), h.crFlag⟩
  rename_i hsig
  split at hs
  · cases hs
    refine ⟨h.ttys, h.streams, h.calls_other hother (fun d hd => ?_), h.crFlag⟩
    cases hd
    exact hch
  · next hwait =>
    exact h.round_off hp hch (hflag (by simpa using hsig) (by simpa using hwait)) hs

theorem Alone.step_off (hok : w.Undisturbed e) (hs : w.step e = some w') (hoff : e.on ch = false) :
    Alone ch w' x := by
  cases e with
  | call p ch' bytes =>
    have hne : ch' ≠ ch := of_decide_eq_false hoff
    rw [step] at hs
    cases hp : w.calls p with
    | some c => rw [hp] at hs; cases hs
    | none =>
      rw [hp] at hs
      cases hs
      refine ⟨h.ttys, h.streams, h.calls_other (by simp [hp]) fun d hd => ?_, h.crFlag⟩
      split at hd
      · cases hd
      · cases hd
        exact hne
  | resume p ch' signal fuel =>
    have hne : ch' ≠ ch := of_decide_eq_false hoff
    rw [step] at hs
    cases hp : w.calls p with
    | none => rw [hp] at hs; cases hs
    | some c =>
      rw [hp] at hs
      obtain ⟨hch, hs⟩ := Option.ite_none_right_eq_some.mp hs
      refine h.proceed_off hp (hch ▸ hne) (fun hsig => ?_) hs
      subst hsig
      exact hok c hp
  | other ch' e =>
    have hne : ch' ≠ ch := of_decide_eq_false hoff
    obtain ⟨-, hs⟩ := Option.ite_none_right_eq_some.mp hs
    obtain ⟨t, ht, rfl⟩ := Option.map_eq_some_iff.mp hs
    exact ⟨h.ttys.trans (update_of_ne hne.symm _ _).symm, h.streams, h.calls, h.crFlag⟩

omit h

/-- Where no process meets another channel's `cr_flag`, each gets what it gets alone. -/
theorem streams_eq_alone {es : List Schedule} {y : World σ} (hidle : w.Idle)
    (hok : Respects step Undisturbed es w) (hrun : run step es w = some y) (ch : Fin 3) :
    ∃ z, run step (es.filter (Schedule.on ch)) w = some z ∧ z.streams ch = y.streams ch ∧
      z.ttys ch = y.ttys ch := by
  have hon : ∀ {w : World σ} {e w' x}, Alone ch w x → Undisturbed w e → World.step w e = some w' →
      e.on ch = true → ∃ y, step x e = some y ∧ Alone ch w' y :=
    fun hr hok hs hk => hr.step_on hok hs hk
  have hoff : ∀ {w : World σ} {e w' x}, Alone ch w x → Undisturbed w e → World.step w e = some w' →
      e.on ch = false → Alone ch w' x :=
    fun hr hok hs hk => hr.step_off hok hs hk
  obtain ⟨z, hz, halone⟩ := run_filter hon hoff (hidle.alone ch) hok hrun
  exact ⟨z, hz, halone.streams, halone.ttys⟩

end World

def serialTermios : Termios :=
  { consoleTermios with
    onlcr := false
    onlret := true
    icanon := false
    echo := false
    echoctl := false }

def terminals : World Vga where
  ttys ch := if ch = 0 then consoleTty else .boot false serialTermios bootConsole
  crFlag := false
  last := 0
  calls := fun _ => none
  streams := fun _ => []

theorem terminals_idle : terminals.Idle := ⟨rfl, fun _ => rfl⟩

/-- A newline for the console between two writes to a serial line. -/
theorem streams_eq_alone_newline :
    ∃ es y z, run World.step es terminals = some y ∧
      run World.step (es.filter (Schedule.on 0)) terminals = some z ∧
      z.streams 0 = y.streams 0 ∧ y.streams 0 = [13, 10] ∧ y.streams 1 = [120, 13] := by
  let es : List Schedule := [.call 1 1 [120], .resume 1 1 false 0, .call 0 0 [10],
    .resume 0 0 false 0, .call 1 1 [10], .resume 1 1 false 0]
  have hcheck : ∀ (w : World Vga) e, decide (w.Undisturbed e) = true → w.Undisturbed e :=
    fun _ _ h => of_decide_eq_true h
  have hrun : (run (fun w e => if decide (World.Undisturbed w e) then World.step w e else none)
      es terminals).map (fun y => (y.streams 0, y.streams 1)) = some ([13, 10], [120, 13]) := by
    decide +kernel
  obtain ⟨y, hy, hstreams⟩ := Option.map_eq_some_iff.mp hrun
  obtain ⟨hok, hy⟩ := respects_of_checked hcheck hy
  obtain ⟨z, hz, heq, -⟩ := World.streams_eq_alone terminals_idle hok hy 0
  exact ⟨es, y, z, hy, hz, heq, congrArg Prod.fst hstreams, congrArg Prod.snd hstreams⟩

section
variable {t : TtyStruct σ} {l rest : List UInt8}

theorem fill_plain (hl : ∀ c ∈ l, post t.termios false c = (false, c)) (hcr : t.crFlag = false)
    (hroom : l.length ≤ t.writeQ.left) :
    t.fill (l ++ rest) = { t with writeQ := t.writeQ.putAll l }.fill rest ∧
      t.fillTrace (l ++ rest) =
        (l ++ ({ t with writeQ := t.writeQ.putAll l }.fillTrace rest).1,
          ({ t with writeQ := t.writeQ.putAll l }.fillTrace rest).2) := by
  induction l generalizing t with
  | nil => exact ⟨rfl, rfl⟩
  | cons c l ih =>
    rw [Queue.left_eq, List.length_cons] at hroom
    have hfull : ¬ t.writeQ.full = true := by
      rw [Queue.full_iff]
      omega
    have hput := Queue.chars_putch (c := c) hfull
    have hc := hl c List.mem_cons_self
    obtain ⟨hfill, htrace⟩ := ih (t := { t with writeQ := t.writeQ.putch c, crFlag := false })
      (fun d hd => hl d (List.mem_cons_of_mem _ hd)) rfl (by rw [Queue.left_eq]; dsimp only; omega)
    rw [List.cons_append, fill, fillTrace, if_neg hfull, if_neg hfull, hcr, hc]
    simp only [Bool.false_eq_true, if_false]
    rw [hfill, htrace, ← hcr]
    exact ⟨rfl, rfl⟩

theorem fill_letter {c : UInt8} (hroom : ¬ t.writeQ.full = true)
    (hpost : (post t.termios t.crFlag c).1 = false) :
    (t.fill [c]).crFlag = false := by
  rw [fill, if_neg hroom, if_neg (Bool.eq_false_iff.mp hpost)]
  rfl

theorem noEscZ_of_notMem {p : Bool} (h : 0x5a ∉ l) : NoEscZ p l := by
  induction l generalizing p with
  | nil => trivial
  | cons c l ih =>
    refine ⟨fun hc => h ?_, ih fun hmem => h (List.mem_cons_of_mem _ hmem)⟩
    rw [hc.2]
    exact List.mem_cons_self

end

def consoleWith (q : Queue) (v : Vt Vga) (crFlag : Bool) : TtyStruct Vga :=
  { consoleTty with writeQ := q, vt := v, crFlag := crFlag }

section
variable {q : Queue} {v : Vt Vga} {f : Call Vga}

theorem write_consoleWith (hz : 0x5a ∉ q.contents) :
    ∃ q' v', (consoleWith q v false).write f = some (consoleWith q' v' false) ∧ q'.chars = 0 := by
  obtain ⟨q', v', hloop, hq', -⟩ := conLoop_quiet (t := consoleWith q v false) (f := f) rfl id
    (noEscZ_of_notMem hz)
  exact ⟨q', v', hloop, hq'⟩

theorem fill_newline_after (hroom : ¬ q.full = true) :
    (consoleWith q v true).fill [10] = consoleWith (q.putch 10) v false ∧
      (consoleWith q v true).fillTrace [10] = ([10], []) := by
  have hroom : ¬ (consoleWith q v true).writeQ.full = true := hroom
  rw [fill, fillTrace, if_neg hroom, if_neg hroom]
  exact ⟨rfl, rfl⟩

theorem fill_newline (hroom : ¬ q.full = true) (hroom' : ¬ (q.putch 13).full = true) :
    (consoleWith q v false).fill [10] = consoleWith ((q.putch 13).putch 10) v false ∧
      (consoleWith q v false).fillTrace [10] = ([13, 10], []) := by
  have hroom : ¬ (consoleWith q v false).writeQ.full = true := hroom
  have hroom' : ¬ ((consoleWith q v false).writeQ.putch 13).full = true := hroom'
  have hpost : (post (consoleWith q v false).termios (consoleWith q v false).crFlag 10).1 = true :=
    rfl
  rw [fill, fillTrace, if_neg hroom, if_neg hroom, if_pos hpost, if_pos hpost]
  rw [if_neg hroom', if_neg hroom']
  exact ⟨rfl, rfl⟩

theorem fill_newline_split (hroom : ¬ q.full = true) (hlast : (q.putch 13).full = true) :
    (consoleWith q v false).fill [10] = consoleWith (q.putch 13) v true ∧
      (consoleWith q v false).fillTrace [10] = ([13], [10]) := by
  have hroom : ¬ (consoleWith q v false).writeQ.full = true := hroom
  have hlast : ((consoleWith q v false).writeQ.putch 13).full = true := hlast
  have hpost : (post (consoleWith q v false).termios (consoleWith q v false).crFlag 10).1 = true :=
    rfl
  rw [fill, fillTrace, if_neg hroom, if_neg hroom, if_pos hpost, if_pos hpost]
  rw [if_pos hlast, if_pos hlast]
  exact ⟨rfl, rfl⟩

end

theorem resume_console {w : World Vga} {q q1 : Queue} {v : Vt Vga} {bytes out left : List UInt8}
    {b : Bool} (htty : w.ttys 0 = consoleWith q v false)
    (hcall : w.calls 0 = some ⟨0, bytes, false⟩) (hroom : ¬ q.full = true)
    (hfill : (consoleWith q v w.crFlag).fill bytes = consoleWith q1 v b ∧
      (consoleWith q v w.crFlag).fillTrace bytes = (out, left)) (hz : 0x5a ∉ q1.contents) :
    ∃ q' v', q'.chars = 0 ∧ w.step (.resume 0 0 false 0) = some
      { ttys := update w.ttys 0 (consoleWith q' v' false)
        crFlag := b
        last := 0
        calls := update w.calls 0 (if left = [] then none else some ⟨0, left, false⟩)
        streams := update w.streams 0 (w.streams 0 ++ out) } := by
  obtain ⟨q', v', hwrite, hq'⟩ := write_consoleWith (v := v) (f := respond 0) hz
  refine ⟨q', v', hq', ?_⟩
  have hwaits : w.waits ⟨0, bytes, false⟩ = false := by
    show (w.ttys 0).writeQ.full = false
    rw [htty]
    exact Bool.eq_false_iff.mpr hroom
  rw [World.step, hcall]
  dsimp only
  rw [if_pos rfl, World.proceed, if_neg Bool.false_ne_true, hwaits, if_neg Bool.false_ne_true,
    World.round]
  dsimp only
  rw [htty, show { consoleWith q v false with crFlag := w.crFlag } =
    consoleWith q v w.crFlag from rfl,
    hfill.1, hfill.2]
  rw [show { consoleWith q1 v b with crFlag := false } = consoleWith q1 v false from rfl, hwrite]
  rfl

theorem resume_newline {w : World Vga} {q : Queue} {v : Vt Vga} (hq : q.chars = 0)
    (htty : w.ttys 0 = consoleWith q v false) (hcall : w.calls 0 = some ⟨0, [10], false⟩) :
    ∃ y, w.step (.resume 0 0 false 0) = some y ∧
      y.streams 0 = w.streams 0 ++ if w.crFlag then [10] else [13, 10] := by
  have hroom : ¬ q.full = true := by rw [Queue.full_iff, hq]; decide
  have hput := Queue.chars_putch (c := 13) hroom
  have hroom' : ¬ (q.putch 13).full = true := by rw [Queue.full_iff, hput, hq]; decide
  have hempty := Queue.contents_eq_nil hq
  cases hcr : w.crFlag with
  | true =>
    obtain ⟨q', v', -, hs⟩ := resume_console htty hcall hroom (hcr ▸ fill_newline_after hroom)
      (by rw [Queue.contents_putch hroom, hempty]; decide)
    exact ⟨_, hs, by simp⟩
  | false =>
    obtain ⟨q', v', -, hs⟩ := resume_console htty hcall hroom (hcr ▸ fill_newline hroom hroom')
      (by rw [Queue.contents_putch hroom', Queue.contents_putch hroom, hempty]; decide)
    exact ⟨_, hs, by simp⟩

def letters : List UInt8 := List.replicate 1022 97

theorem length_letters : letters.length = 1022 := List.length_replicate

/-- The console gets the letters and a newline, and the queue is full after the carriage return. -/
theorem resume_letters {w : World Vga} (htty : w.ttys 0 = consoleTty)
    (hcall : w.calls 0 = some ⟨0, letters ++ [10], false⟩) (hcr : w.crFlag = false) :
    ∃ q v, q.chars = 0 ∧ w.step (.resume 0 0 false 0) = some
      { ttys := update w.ttys 0 (consoleWith q v false)
        crFlag := true
        last := 0
        calls := update w.calls 0 (some ⟨0, [10], false⟩)
        streams := update w.streams 0 (w.streams 0 ++ (letters ++ [13])) } := by
  have hchars : (Queue.empty 0).chars = 0 := Queue.chars_empty 0
  have hleft : letters.length ≤ (Queue.empty 0).left := by
    rw [Queue.left_eq, hchars, length_letters]
    decide
  obtain ⟨hcontents, hcount, -⟩ := Queue.putAll_spec hleft
  rw [hchars, length_letters] at hcount
  have hplain : ∀ c ∈ letters, post consoleTermios false c = (false, c) := by
    intro c hc
    rw [List.eq_of_mem_replicate hc]
    rfl
  obtain ⟨hfill, htrace⟩ : _ ∧ consoleTty.fillTrace (letters ++ [10]) = _ :=
    fill_plain (t := consoleTty) hplain rfl hleft
  rw [show { consoleTty with writeQ := consoleTty.writeQ.putAll letters } =
    consoleWith ((Queue.empty 0).putAll letters) bootConsole false from rfl] at hfill htrace
  generalize (Queue.empty 0).putAll letters = q at hcontents hcount hfill htrace
  have hroom : ¬ q.full = true := by rw [Queue.full_iff, hcount]; decide
  have hlast : (q.putch 13).full = true := by
    rw [Queue.full_iff, Queue.chars_putch hroom, hcount]
  obtain ⟨hfill', htrace'⟩ := fill_newline_split (v := bootConsole) hroom hlast
  rw [hfill'] at hfill
  rw [htrace'] at htrace
  refine resume_console (q := .empty 0) (v := bootConsole) htty hcall (by decide)
    (by rw [hcr]; exact ⟨hfill, htrace⟩) ?_
  rw [Queue.contents_putch hroom, hcontents, Queue.contents_eq_nil hchars]
  intro hmem
  rcases List.mem_append.mp hmem with hmem | hmem
  · exact absurd (List.eq_of_mem_replicate hmem) (by decide)
  · exact absurd (List.mem_singleton.mp hmem) (by decide)

theorem round_serial {w : World Vga} {p fuel : Nat} {c : Write}
    (hconsole : (w.ttys c.channel).console = false) :
    ∃ y, w.round p c fuel = some y ∧
      y.crFlag = ({ w.ttys c.channel with crFlag := w.crFlag }.fill c.bytes).crFlag ∧
      (∀ ch ≠ c.channel, y.ttys ch = w.ttys ch ∧ y.streams ch = w.streams ch) ∧
      ∀ p' ≠ p, y.calls p' = w.calls p' := by
  obtain ⟨q, b, heq, -⟩ := fill_spec c.bytes { w.ttys c.channel with crFlag := w.crFlag }
  have hwrite : ∀ t : TtyStruct Vga, t.console = false → t.write (respond fuel) = some t :=
    fun t ht => by rw [write, if_neg (by rw [ht]; exact Bool.false_ne_true)]
  rw [World.round]
  dsimp only
  rw [hwrite _ (by
    rw [heq]
    exact hconsole)]
  exact ⟨_, rfl, rfl, fun ch hne => ⟨update_of_ne hne _ _, update_of_ne hne _ _⟩,
    fun p' hne => update_of_ne hne _ _⟩

theorem write_serial {w : World Vga} (htty : w.ttys 1 = .boot false serialTermios bootConsole)
    (hcall : w.calls 1 = none) :
    ∃ u y, w.step (.call 1 1 [120]) = some u ∧ u.step (.resume 1 1 false 0) = some y ∧
      y.ttys 0 = w.ttys 0 ∧ y.calls 0 = w.calls 0 ∧ y.streams 0 = w.streams 0 ∧
      y.crFlag = false := by
  let u : World Vga := { w with calls := update w.calls 1 (some ⟨1, [120], false⟩) }
  have hu : w.step (.call 1 1 [120]) = some u := by
    rw [World.step, hcall]
    rfl
  have hcall' : u.calls 1 = some ⟨1, [120], false⟩ := by simp [u]
  have hwaits : u.waits ⟨1, [120], false⟩ = false := by
    show (w.ttys 1).writeQ.full = false
    rw [htty]
    decide
  have hstep : u.step (.resume 1 1 false 0) = u.round 1 ⟨1, [120], false⟩ 0 := by
    rw [World.step, hcall']
    dsimp only
    rw [if_pos rfl, World.proceed, if_neg Bool.false_ne_true, hwaits, if_neg Bool.false_ne_true]
  obtain ⟨y, hy, hflag, hother, hcalls⟩ := round_serial (w := u) (p := 1) (c := ⟨1, [120], false⟩)
    (by show (w.ttys 1).console = false; rw [htty]; rfl)
  obtain ⟨htty', hstreams⟩ := hother 0 (by decide)
  refine ⟨u, y, hu, hstep.trans hy, htty', (hcalls 0 (by decide)).trans (by simp [u]), hstreams, ?_⟩
  rw [hflag]
  refine fill_letter (Bool.eq_false_iff.mp hwaits) ?_
  rw [htty]
  rfl

/-- Another channel clears `cr_flag`, and the console gets a second return. -/
theorem carriageReturn_twice :
    let es : List Schedule := [.call 0 0 (letters ++ [10]), .resume 0 0 false 0, .call 1 1 [120],
      .resume 1 1 false 0, .resume 0 0 false 0]
    ∃ y z, run World.step es terminals = some y ∧
      run World.step (es.filter (Schedule.on 0)) terminals = some z ∧
      y.streams 0 = letters ++ [13, 13, 10] ∧ z.streams 0 = letters ++ [13, 10] ∧
      y.streams 0 ≠ z.streams 0 := by
  intro es
  have hne : letters ++ [10] ≠ [] := by simp
  let w1 : World Vga :=
    { terminals with calls := update terminals.calls 0 (some ⟨0, letters ++ [10], false⟩) }
  have h1 : terminals.step (.call 0 0 (letters ++ [10])) = some w1 := by
    show some _ = _
    rw [if_neg hne]
  obtain ⟨q, v, hq, h2⟩ := resume_letters (w := w1) rfl rfl rfl
  generalize hw2 : World.mk _ _ _ _ _ = w2 at h2
  have htty2 : w2.ttys 0 = consoleWith q v false := by rw [← hw2]; rfl
  have hcall2 : w2.calls 0 = some ⟨0, [10], false⟩ := by rw [← hw2]; rfl
  have hstream2 : w2.streams 0 = letters ++ [13] := by rw [← hw2]; rfl
  have hflag2 : w2.crFlag = true := by rw [← hw2]
  -- alone, process 0 goes on with the flag as it left it
  obtain ⟨z, hz, hzstream⟩ := resume_newline hq htty2 hcall2
  -- the letter for the serial line clears the flag
  obtain ⟨u, w3, hu, h3, htty3, hcall3, hstream3, hflag3⟩ :=
    write_serial (w := w2) (by rw [← hw2]; rfl) (by rw [← hw2]; rfl)
  obtain ⟨y, hy, hystream⟩ := resume_newline hq (htty3.trans htty2) (hcall3.trans hcall2)
  rw [hflag2, hstream2] at hzstream
  rw [hflag3, hstream3, hstream2] at hystream
  rw [List.append_assoc] at hzstream hystream
  refine ⟨y, z, ?_, ?_, hystream, hzstream, fun heq => ?_⟩
  · show (terminals.step _).bind _ = _
    rw [h1, Option.bind_some, run_cons, h2, Option.bind_some]
    rw [run_cons, hu, Option.bind_some, run_cons, h3, Option.bind_some, run_cons, hy]
    rfl
  · show (terminals.step _).bind _ = _
    rw [h1, Option.bind_some]
    show (w1.step _).bind _ = _
    rw [h2, Option.bind_some]
    show (w2.step _).bind _ = _
    rw [hz]
    rfl
  · rw [hystream, hzstream] at heq
    exact absurd (List.append_cancel_left heq) (by decide)

end Linux001.Tty
