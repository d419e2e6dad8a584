import Linux001.Tty.Discipline

/-! `con_write` takes the number of the queued characters once. The answer to ESC Z is echoed by
nested calls that take all that is queued, and the outer call goes on with an empty queue. -/

namespace Linux001.Tty

open Function ProofKit Console

variable {σ : Type*}

namespace Queue

variable {q : Queue} {n : Nat}

/-- A character was put into the full queue, or taken from the empty one. -/
def Broken (q : Queue) : Prop := q.overrun = true ∨ q.put < q.taken + q.chars

/-- The queue is broken, or it is sound and has at most `n` characters. -/
def Within (q : Queue) (n : Nat) : Prop := q.Broken ∨ q.Sound ∧ q.chars ≤ n

theorem getch_of_chars (h : q.chars = n + 1) : ¬ q.isEmpty = true ∧ q.getch.chars = n := by
  have hne : ¬ q.isEmpty = true := by
    rw [isEmpty_iff]
    omega
  rw [chars_getch hne, h]
  exact ⟨hne, rfl⟩

theorem Broken.not_sound (h : q.Broken) : ¬ q.Sound := by
  rintro ⟨hoverrun, hchars⟩
  rcases h with h | h
  · rw [hoverrun] at h
    cases h
  · omega

theorem Broken.getch (h : q.Broken) : q.getch.Broken := by
  refine h.imp id fun hlt => ?_
  have hle : q.chars ≤ q.getch.chars + 1 := by
    by_cases hne : q.isEmpty = true
    · rw [isEmpty_iff.mp hne]
      omega
    · rw [chars_getch hne]
      omega
  show q.put < q.taken + 1 + q.getch.chars
  omega

theorem Broken.putch (h : q.Broken) (c : UInt8) : (q.putch c).Broken := by
  by_cases hfull : q.full = true
  · left
    show (q.overrun || q.full) = true
    rw [hfull, Bool.or_true]
  · refine h.imp (fun h => ?_) fun h => ?_
    · show (q.overrun || q.full) = true
      rw [h, Bool.true_or]
    · rw [chars_putch hfull]
      show q.put + 1 < q.taken + (q.chars + 1)
      omega

theorem Broken.putAll (h : q.Broken) (l : List UInt8) : (q.putAll l).Broken :=
  List.foldlRecOn l _ h fun _ h c _ => h.putch c

theorem Within.mono {m : Nat} (h : q.Within n) (hle : n ≤ m) : q.Within m :=
  h.imp_right fun h => ⟨h.1, h.2.trans hle⟩

/-- To take a character from an empty queue breaks it. -/
theorem Within.broken_getch (h : q.Within 0) : q.getch.Broken := by
  rcases h with h | ⟨hs, hzero⟩
  · exact h.getch
  · right
    have hchars := hs.chars
    show q.put < q.taken + 1 + q.getch.chars
    omega

theorem Within.getch (h : q.Within (n + 1)) : q.getch.Within n := by
  rcases h with h | ⟨hs, hle⟩
  · exact .inl h.getch
  by_cases hempty : q.isEmpty = true
  · have hzero : q.Within 0 := .inr ⟨hs, Nat.le_of_eq (isEmpty_iff.mp hempty)⟩
    exact .inl hzero.broken_getch
  · refine .inr ⟨hs.getch hempty, ?_⟩
    rw [chars_getch hempty]
    omega

theorem Within.putAll (h : q.Within n) (l : List UInt8) :
    (q.putAll l).Within (q.putAll l).chars := by
  induction l generalizing q n with
  | nil => exact h.imp_right fun h => ⟨h.1, Nat.le_refl _⟩
  | cons c l ih =>
    refine ih (q := q.putch c) (n := (q.putch c).chars) ?_
    rcases h with h | ⟨hs, -⟩
    · exact .inl (h.putch c)
    by_cases hfull : q.full = true
    · refine .inl (.inl ?_)
      show (q.overrun || q.full) = true
      rw [hfull, Bool.or_true]
    · exact .inr ⟨hs.putch hfull c, Nat.le_refl _⟩

end Queue

namespace TtyStruct

variable [Screen σ] {t u : TtyStruct σ} {f : Call σ} {n k : Nat} {l : List UInt8}

/-- With enough fuel `con_write` returns, no character was taken from an empty write queue or put
into a full one, and none is left. -/
def Consumes (t : TtyStruct σ) : Prop :=
  ∃ enough, ∀ fuel ≥ enough,
    ∃ t', t.write (respond fuel) = some t' ∧ t'.writeQ.Sound ∧ t'.writeQ.chars = 0

/-- The number of times that ESC Z is completed with characters left. -/
def answersLeft (erase : UInt8) : Vt σ → List UInt8 → Nat
  | _, [] => 0
  | v, c :: l =>
    (if v.state = 1 ∧ c = 0x5a ∧ l ≠ [] then 1 else 0) + answersLeft erase (v.write erase c) l

/-- `copy_to_cooked` does nothing with the character. -/
def drops (t : TtyStruct σ) (c : UInt8) : Bool :=
  match t.termios.action c with
  | .queue _ => false
  | .erase => t.secondary.isEmpty ∨ t.termios.endsLine t.secondary.last
  | _ => true

/-- No answer is echoed with characters left: ECHO is off, the secondary queue is full, no ESC Z
ends with characters left, or one does and all in the read queue is dropped. -/
def Undisturbed (t : TtyStruct σ) : Prop :=
  t.termios.echo = false ∨ t.secondary.full = true ∨
    answersLeft t.termios.verase t.vt t.writeQ.contents = 0 ∨
    answersLeft t.termios.verase t.vt t.writeQ.contents = 1 ∧
      ∀ c ∈ t.putResponse.readQ.contents, t.drops c = true

/-- The state after `con_write` took a character and showed it. -/
def afterChar (t : TtyStruct σ) : TtyStruct σ :=
  { t with writeQ := t.writeQ.getch, vt := t.vt.write t.termios.verase t.writeQ.first }

theorem conLoop_succ (f : Call σ) (n : Nat) (t : TtyStruct σ) : conLoop f (n + 1) t =
    if t.answers t.writeQ.first then (f t.afterChar).bind (conLoop f n)
    else conLoop f n t.afterChar := rfl

/-! ### What nested calls leave -/

/-- The write queue has no more characters, and a broken one stays so. -/
structure Tidied (t u : TtyStruct σ) : Prop where
  console : u.console = t.console
  termios : u.termios = t.termios
  within : ∀ n, t.writeQ.Within n → u.writeQ.Within n
  broken : t.writeQ.Broken → u.writeQ.Broken

omit [Screen σ] in
theorem Tidied.of_same (hc : u.console = t.console) (htm : u.termios = t.termios)
    (hq : u.writeQ = t.writeQ) : Tidied t u :=
  ⟨hc, htm, fun _ h => hq ▸ h, fun h => hq ▸ h⟩

/-- The calls of the console that leave the write queue so. -/
def Tidy (f : Call σ) : Prop :=
  ∀ t u n, t.console = true → t.writeQ.Within n → f t = some u → Tidied t u

theorem conLoop_round (hf : Tidy f) (hc : t.console = true) {m : Nat} (hq : t.writeQ.Within m)
    (h : conLoop f (n + 1) t = some u) :
    ∃ v, conLoop f n v = some u ∧ v.console = t.console ∧ v.termios = t.termios ∧
      (∀ m, t.writeQ.Within (m + 1) → v.writeQ.Within m) ∧
      (t.writeQ.Within 0 → v.writeQ.Broken) ∧ (t.writeQ.Broken → v.writeQ.Broken) := by
  rw [conLoop_succ] at h
  split at h
  · obtain ⟨v, hv, hvu⟩ := Option.bind_eq_some_iff.mp h
    have htidied := hf t.afterChar v m hc (hq.mono m.le_succ).getch hv
    exact ⟨v, hvu, htidied.console, htidied.termios, fun m h => htidied.within m h.getch,
      fun h => htidied.broken h.broken_getch, fun h => htidied.broken h.getch⟩
  · exact ⟨_, h, rfl, rfl, fun m h => h.getch, fun h => h.broken_getch, fun h => h.getch⟩

theorem conLoop_tidy (hf : Tidy f) (hc : t.console = true) (hq : t.writeQ.Within n)
    (h : conLoop f n t = some u) :
    u.console = t.console ∧ u.termios = t.termios ∧ u.writeQ.Within 0 ∧
      (t.writeQ.Broken → u.writeQ.Broken) := by
  induction n generalizing t with
  | zero =>
    cases h
    exact ⟨rfl, rfl, hq, id⟩
  | succ n ih =>
    obtain ⟨v, hvu, hcv, htm, hwithin, -, hbroken⟩ := conLoop_round hf hc hq h
    obtain ⟨hcu, htmu, hu, hbroken'⟩ := ih (hcv.trans hc) (hwithin n hq) hvu
    exact ⟨hcu.trans hcv, htmu.trans htm, hu, hbroken' ∘ hbroken⟩

/-- One round too many breaks the queue. -/
theorem conLoop_broken (hf : Tidy f) (hc : t.console = true) (hq : t.writeQ.Within n)
    (h : conLoop f (n + 1) t = some u) : u.writeQ.Broken := by
  induction n generalizing t with
  | zero =>
    obtain ⟨v, hvu, -, -, -, hbroken, -⟩ := conLoop_round hf hc hq h
    cases hvu
    exact hbroken hq
  | succ n ih =>
    obtain ⟨v, hvu, hcv, -, hwithin, -, -⟩ := conLoop_round hf hc hq h
    exact ih (hcv.trans hc) (hwithin n hq) hvu

theorem echo_tidy (hf : Tidy f) (hc : t.console = true) (hq : t.writeQ.Within n)
    (h : t.echo f l = some u) :
    Tidied t u ∧ (t.termios.echo = true → u.writeQ.Within 0) := by
  rw [echo] at h
  split at h
  · rw [write, if_pos (by exact hc)] at h
    obtain ⟨hcu, htm, hu, hbroken⟩ :=
      conLoop_tidy (t := { t with writeQ := t.writeQ.putAll l }) hf hc (hq.putAll l) h
    exact ⟨⟨hcu, htm, fun n _ => hu.mono n.zero_le, fun h => hbroken (h.putAll l)⟩, fun _ => hu⟩
  · next hecho =>
    cases h
    exact ⟨.of_same rfl rfl rfl, fun h => absurd h hecho⟩

theorem copyChar_tidy (hf : Tidy f) (hc : t.console = true) (hq : t.writeQ.Within n)
    (h : t.copyChar f = some u) :
    Tidied t u ∧ (t.termios.echo = true → t.drops t.readQ.first = false → u.writeQ.Within 0) := by
  rw [copyChar] at h
  rw [drops]
  cases haction : t.termios.action t.readQ.first with
  | drop | stop | start =>
    rw [haction] at h
    cases h
    exact ⟨.of_same rfl rfl rfl, fun _ h => absurd h.symm Bool.false_ne_true⟩
  | erase =>
    rw [haction] at h
    simp only [eraseChar] at h
    split at h
    · next hno =>
      cases h
      exact ⟨.of_same rfl rfl rfl, fun _ h => absurd (decide_eq_true hno) (Bool.eq_false_iff.mp h)⟩
    · obtain ⟨v, hv, rfl⟩ := Option.map_eq_some_iff.mp h
      obtain ⟨hv, hecho⟩ := echo_tidy (t := t.nextChar) hf hc hq hv
      exact ⟨⟨hv.console, hv.termios, hv.within, hv.broken⟩, fun h _ => hecho h⟩
  | queue c =>
    rw [haction] at h
    simp only [queueChar_eq] at h
    obtain ⟨v, hv, rfl⟩ := Option.map_eq_some_iff.mp h
    obtain ⟨hv, hecho⟩ := echo_tidy hf (by exact hc) (by exact hq) hv
    exact ⟨⟨hv.console, hv.termios, hv.within, hv.broken⟩, fun h _ => hecho h⟩

theorem copyLoop_tidy (hf : Tidy f) (n : Nat) : Tidy (copyLoop f n) := by
  induction n with
  | zero => exact fun _ _ _ _ _ h => nomatch h
  | succ n ih =>
    intro t u m hc hq h
    rw [copyLoop] at h
    split at h
    · cases h
      exact .of_same rfl rfl rfl
    · obtain ⟨v, hv, hvu⟩ := Option.bind_eq_some_iff.mp h
      have htidied := (copyChar_tidy hf hc hq hv).1
      have hrest := ih v u m (htidied.console.trans hc) (htidied.within m hq) hvu
      exact ⟨hrest.console.trans htidied.console, hrest.termios.trans htidied.termios,
        fun m => hrest.within m ∘ htidied.within m, hrest.broken ∘ htidied.broken⟩

theorem respond_tidy (k : Nat) : Tidy (σ := σ) (respond k) := by
  induction k with
  | zero => exact fun _ _ _ _ _ h => nomatch h
  | succ k ih =>
    intro t u n hc hq h
    have htidied := copyLoop_tidy ih (k + 1) t.putResponse u n hc hq h
    exact ⟨htidied.console, htidied.termios, htidied.within, htidied.broken⟩

/-! ### Answers with nothing to echo, and with something -/

/-- The screen and the write queue are as before; with echo, the secondary queue too. -/
structure Kept (t u : TtyStruct σ) : Prop where
  console : u.console = t.console
  termios : u.termios = t.termios
  writeQ : u.writeQ = t.writeQ
  vt : u.vt = t.vt
  secondary : t.termios.echo = false ∨ u.secondary = t.secondary

omit [Screen σ] in
theorem Kept.trans {v : TtyStruct σ} (h : Kept t u) (h' : Kept u v) : Kept t v := by
  refine ⟨h'.console.trans h.console, h'.termios.trans h.termios, h'.writeQ.trans h.writeQ,
    h'.vt.trans h.vt, ?_⟩
  have hsec := h'.secondary
  rw [h.termios] at hsec
  rcases h.secondary with hecho | heq
  · exact .inl hecho
  · rwa [heq] at hsec

omit [Screen σ] in
theorem Kept.secondary_eq (h : Kept t u) (hecho : t.termios.echo = true) :
    u.secondary = t.secondary :=
  h.secondary.resolve_left (Bool.not_eq_false _ ▸ hecho)

omit [Screen σ] in
theorem Kept.drops (h : Kept t u) (hecho : t.termios.echo = true) (c : UInt8) :
    u.drops c = t.drops c := by
  rw [TtyStruct.drops, h.termios, h.secondary_eq hecho]
  rfl

theorem echo_mute (hecho : t.termios.echo = false) (l : List UInt8) : t.echo f l = some t := by
  rw [echo, hecho]
  rfl

theorem copyChar_mute (h : t.termios.echo = false ∨ t.drops t.readQ.first = true) :
    ∃ u, t.copyChar f = some u ∧ Kept t u ∧ u.readQ = t.readQ.getch := by
  rw [drops] at h
  rw [copyChar]
  cases haction : t.termios.action t.readQ.first with
  | drop | stop | start => exact ⟨_, rfl, ⟨rfl, rfl, rfl, rfl, .inr rfl⟩, rfl⟩
  | erase =>
    rw [haction] at h
    dsimp only
    rw [eraseChar]
    split
    · exact ⟨_, rfl, ⟨rfl, rfl, rfl, rfl, .inr rfl⟩, rfl⟩
    · next hno =>
      have hecho := h.resolve_right fun h => hno (of_decide_eq_true h)
      rw [echo_mute (t := t.nextChar) hecho]
      exact ⟨_, rfl, ⟨rfl, rfl, rfl, rfl, .inl hecho⟩, rfl⟩
  | queue c =>
    rw [haction] at h
    have hecho := h.resolve_right Bool.false_ne_true
    dsimp only
    rw [queueChar_eq, echo_mute (by exact hecho)]
    exact ⟨_, rfl, ⟨rfl, rfl, rfl, rfl, .inl hecho⟩, rfl⟩

/-- Nothing in the read queue is echoed. -/
def Mute (t : TtyStruct σ) : Prop :=
  t.termios.echo = false ∨ t.secondary.full = true ∨ ∀ c ∈ t.readQ.contents, t.drops c = true

theorem copyLoop_mute (hn : t.readQ.chars < n) (h : t.Mute) :
    ∃ u, copyLoop f n t = some u ∧ Kept t u ∧ (u.secondary.full = true ∨ u.readQ.chars = 0) := by
  induction n generalizing t with
  | zero => omega
  | succ n ih =>
    rw [copyLoop]
    split
    · next hend =>
      exact ⟨t, rfl, ⟨rfl, rfl, rfl, rfl, .inr rfl⟩, hend.symm.imp_right Queue.isEmpty_iff.mp⟩
    · next hgo =>
      obtain ⟨hne, hroom⟩ := not_or.mp hgo
      have h := h.imp_right fun h => h.resolve_left hroom
      rw [Queue.contents_eq_cons hne] at h
      obtain ⟨u, hu, hkept, hread⟩ :=
        copyChar_mute (f := f) (h.imp_right fun h => h _ List.mem_cons_self)
      have hlt : u.readQ.chars < n := by
        have hpos := Queue.chars_pos hne
        rw [hread, Queue.chars_getch hne]
        omega
      have hmute : u.Mute := by
        by_cases hecho : t.termios.echo = true
        · refine .inr (.inr fun c hc => ?_)
          rw [hread] at hc
          rw [hkept.drops hecho]
          exact h.resolve_left (by simp [hecho]) c (List.mem_cons_of_mem _ hc)
        · exact .inl (hkept.termios ▸ Bool.eq_false_iff.mpr hecho)
      obtain ⟨v, hv, hkept', hend⟩ := ih hlt hmute
      exact ⟨v, Option.bind_eq_some_iff.mpr ⟨u, hu, hv⟩, hkept.trans hkept', hend⟩

theorem respond_mute (hk : 1024 ≤ k) (h : t.putResponse.Mute) :
    ∃ u, respond k t = some u ∧ Kept t u ∧ (u.secondary.full = true ∨ u.readQ.chars = 0) := by
  obtain ⟨k, rfl⟩ := Nat.exists_eq_add_of_le' (Nat.zero_lt_of_lt hk)
  obtain ⟨u, hu, hkept, hend⟩ :=
    copyLoop_mute (f := respond k) (t.putResponse.readQ.chars_lt.trans_le hk) h
  exact ⟨u, hu, ⟨hkept.console, hkept.termios, hkept.writeQ, hkept.vt, hkept.secondary⟩, hend⟩

theorem copyLoop_loud (hf : Tidy f) {m : Nat} (hc : t.console = true) (hq : t.writeQ.Within m)
    (hecho : t.termios.echo = true) (hroom : ¬ t.secondary.full = true)
    (hloud : ∃ c ∈ t.readQ.contents, t.drops c = false) (h : copyLoop f n t = some u) :
    u.writeQ.Within 0 := by
  induction n generalizing t with
  | zero => cases h
  | succ n ih =>
    obtain ⟨c, hmem, hkeep⟩ := hloud
    have hne : ¬ t.readQ.isEmpty = true := by
      intro hempty
      rw [Queue.contents_eq_nil (Queue.isEmpty_iff.mp hempty)] at hmem
      cases hmem
    rw [copyLoop, if_neg (not_or.mpr ⟨hne, hroom⟩)] at h
    obtain ⟨v, hv, hvu⟩ := Option.bind_eq_some_iff.mp h
    cases hfirst : t.drops t.readQ.first with
    | true =>
      obtain ⟨w, hw, hkept, hread⟩ := copyChar_mute (f := f) (.inr hfirst)
      cases hw.symm.trans hv
      refine ih (hkept.console.trans hc) (hkept.writeQ ▸ hq) (hkept.termios ▸ hecho)
        (hkept.secondary_eq hecho ▸ hroom) ⟨c, ?_, (hkept.drops hecho c).trans hkeep⟩ hvu
      rw [hread]
      rw [Queue.contents_eq_cons hne] at hmem
      refine (List.mem_cons.mp hmem).resolve_left fun heq => ?_
      rw [heq, hfirst] at hkeep
      cases hkeep
    | false =>
      obtain ⟨htidied, hloud⟩ := copyChar_tidy hf hc hq hv
      have hrest := copyLoop_tidy hf n v u m (htidied.console.trans hc) (htidied.within m hq) hvu
      exact hrest.within 0 (hloud hecho hfirst)

theorem respond_loud {m : Nat} (hc : t.console = true) (hq : t.writeQ.Within m)
    (hecho : t.termios.echo = true) (hroom : ¬ t.secondary.full = true)
    (hloud : ∃ c ∈ t.putResponse.readQ.contents, t.drops c = false) (h : respond k t = some u) :
    u.writeQ.Within 0 := by
  cases k with
  | zero => cases h
  | succ k =>
    exact copyLoop_loud (t := t.putResponse) (respond_tidy k) hc hq hecho hroom hloud h

theorem translate_response (tm : Termios) {c : UInt8} (hc : c ∈ response) :
    tm.translate c = some c := by
  simp only [response, List.mem_cons, List.not_mem_nil, or_false] at hc
  rcases hc with rfl | rfl | rfl | rfl | rfl | rfl | rfl <;>
    simp [Termios.translate, Termios.tolower]

omit [Screen σ] in
/-- The answer has seven different characters, of which four can be dropped. -/
theorem response_loud (t : TtyStruct σ) : ∃ c ∈ response, t.drops c = false := by
  by_contra hall
  have hspecial : response.toFinset ⊆
      {t.termios.verase, t.termios.vstop, t.termios.vstart, t.termios.vintr} := by
    intro c hc
    by_contra hne
    simp only [Finset.mem_insert, Finset.mem_singleton, not_or] at hne
    obtain ⟨herase, hstop, hstart, hintr⟩ := hne
    refine hall ⟨c, List.mem_toFinset.mp hc, ?_⟩
    simp [drops, Termios.action, translate_response t.termios (List.mem_toFinset.mp hc),
      Termios.isChar, herase, hstop, hstart, hintr]
  have hcard := (Finset.card_le_card hspecial).trans Finset.card_le_four
  exact absurd hcard (by decide)

/-! ### The answer to the last character -/

/-- A character that is echoed as a Z counts for itself and for the answer to it. -/
def weight (tm : Termios) (c : UInt8) : Nat :=
  match tm.action c with
  | .queue c => if c = 0x5a then 9 else 1
  | _ => 1

def readWeight (tm : Termios) (q : Queue) : Nat := (q.contents.map (weight tm)).sum

theorem readWeight_getch {q : Queue} (tm : Termios) (h : ¬ q.isEmpty = true) :
    readWeight tm q = weight tm q.first + readWeight tm q.getch := by
  rw [readWeight, Queue.contents_eq_cons h, List.map_cons, List.sum_cons]
  rfl

theorem weight_pos (tm : Termios) (c : UInt8) : 0 < weight tm c := by
  unfold weight
  split
  · split <;> decide
  · decide

theorem weight_le (tm : Termios) (c : UInt8) : weight tm c ≤ 9 := by
  unfold weight
  split
  · split <;> decide
  · decide

theorem readWeight_lt (tm : Termios) (q : Queue) : readWeight tm q < 9208 := by
  have hsum := List.sum_le_card_nsmul (q.contents.map (weight tm)) 9 fun w hw => by
    obtain ⟨c, -, rfl⟩ := List.mem_map.mp hw
    exact weight_le tm c
  rw [List.length_map, Queue.length_contents, smul_eq_mul] at hsum
  have hchars := q.chars_lt
  exact lt_of_le_of_lt hsum (by omega)

theorem translate_of_action {tm : Termios} {c c' : UInt8} (h : tm.action c = .queue c') :
    tm.translate c = some c' := by
  unfold Termios.action at h
  cases htranslate : tm.translate c with
  | none =>
    rw [htranslate] at h
    cases h
  | some d =>
    rw [htranslate] at h
    dsimp only at h
    split_ifs at h
    cases h
    rfl

theorem weight_response (tm : Termios) {c : UInt8} (hc : c ∈ response) : weight tm c = 1 := by
  unfold weight
  split
  · next c' haction =>
    cases (translate_response tm hc).symm.trans (translate_of_action haction)
    exact if_neg fun h => absurd (h ▸ hc) (by decide)
  · rfl

theorem readWeight_putAll (tm : Termios) (q : Queue) (hl : ∀ c ∈ l, weight tm c = 1) :
    readWeight tm (q.putAll l) ≤ readWeight tm q + l.length := by
  induction l generalizing q with
  | nil => exact Nat.le_refl _
  | cons c l ih =>
    have hput : readWeight tm (q.putch c) ≤ readWeight tm q + 1 := by
      by_cases hfull : q.full = true
      · have hzero : (q.putch c).chars = 0 := by
          have hchars : q.ring.size = 1023 := Queue.full_iff.mp hfull
          show (q.ring.push c).size = 0
          rw [RingBuffer.size_push, hchars]
          rfl
        rw [readWeight, Queue.contents_eq_nil hzero]
        exact Nat.zero_le _
      · rw [readWeight, Queue.contents_putch hfull, List.map_append, List.sum_append]
        simp [readWeight, hl c List.mem_cons_self]
    have hrest := ih (q.putch c) fun c hc => hl c (List.mem_cons_of_mem _ hc)
    show readWeight tm ((q.putch c).putAll l) ≤ _
    rw [List.length_cons]
    omega

theorem noEscZ_echoChars (tm : Termios) (c : UInt8) (p : Bool) (h : ¬ (p = true ∧ c = 0x5a)) :
    NoEscZ p (tm.echoChars c) := by
  unfold Termios.echoChars
  split_ifs
  · exact ⟨fun h => absurd h.2 (by decide), by decide, trivial⟩
  · exact ⟨fun h => absurd h.2 (by decide), fun h => absurd h.1 (by decide), trivial⟩
  · trivial
  · exact ⟨h, trivial⟩

/-- The console echoes, and its write queue is empty. -/
structure Settled (t : TtyStruct σ) : Prop where
  console : t.console = true
  echo : t.termios.echo = true
  sound : t.writeQ.Sound
  chars : t.writeQ.chars = 0

/-- The call comes back to such a state, with no more than this in the read queue. -/
def Settles (r : Option (TtyStruct σ)) (tm : Termios) (w : Nat) : Prop :=
  ∃ u, r = some u ∧ u.Settled ∧ u.termios = tm ∧ readWeight tm u.readQ ≤ w

theorem echo_settles (h : t.Settled) (hl : l.length ≤ 2) (hz : NoEscZ t.esc l) (f : Call σ) :
    ∃ q v, t.echo f l = some { t with writeQ := q, vt := v } ∧ q.Sound ∧ q.chars = 0 := by
  have hnil := Queue.contents_eq_nil h.chars
  have hroom : l.length ≤ t.writeQ.left := by
    rw [Queue.left_eq, h.chars]
    omega
  obtain ⟨q, v, hecho, hq, hsound, -⟩ := echo_empties (f := f) h.console h.echo hroom
    (by rwa [hnil, List.nil_append])
  exact ⟨q, v, hecho, hsound h.sound, hq⟩

/-- The echo of a Z after an ESC is a nested answer. -/
theorem echo_answers (h : t.Settled) (hesc : t.esc = true) :
    ∃ q v, (∀ f, t.echo f [0x5a] = f { t with writeQ := q, vt := v }) ∧ q.Sound ∧ q.chars = 0 := by
  obtain ⟨hcontents, hchars, hsound⟩ := Queue.putAll_spec (q := t.writeQ) (l := [0x5a])
    (by rw [Queue.left_eq, h.chars]; decide)
  have hone : (t.writeQ.putAll [0x5a]).chars = 1 := by rw [hchars, h.chars]; rfl
  have hne : ¬ (t.writeQ.putAll [0x5a]).isEmpty = true := by
    rw [Queue.isEmpty_iff, hone]
    decide
  have hfirst : (t.writeQ.putAll [0x5a]).first = 0x5a := by
    rw [Queue.contents_eq_cons hne, Queue.contents_eq_nil h.chars] at hcontents
    exact (List.cons.inj hcontents).1
  refine ⟨(t.writeQ.putAll [0x5a]).getch, t.vt.write t.termios.verase 0x5a, fun f => ?_,
    (hsound h.sound).getch hne, ?_⟩
  · rw [echo, if_pos h.echo, write, if_pos (by exact h.console)]
    rw [hone, conLoop_succ, if_pos]
    · rw [afterChar]
      rw [hfirst]
      exact Option.bind_fun_some _
    · exact decide_eq_true ⟨of_decide_eq_true hesc, hfirst⟩
  · rw [Queue.chars_getch hne, hone]

theorem copyChar_settles (h : t.Settled) (hne : ¬ t.readQ.isEmpty = true)
    (ih : ∀ t' : TtyStruct σ, t'.Settled →
      readWeight t'.termios t'.readQ < readWeight t.termios t.readQ →
      Settles (copyToCooked k t') t'.termios (readWeight t'.termios t'.readQ)) :
    Settles (t.copyChar (respond k)) t.termios (readWeight t.termios t.readQ - 1) := by
  have hweight := readWeight_getch t.termios hne
  have hpos := weight_pos t.termios t.readQ.first
  have hle : readWeight t.termios t.readQ.getch ≤ readWeight t.termios t.readQ - 1 := by omega
  have hnext : t.nextChar.Settled := ⟨h.console, h.echo, h.sound, h.chars⟩
  by_cases hdrops : t.drops t.readQ.first = true
  · obtain ⟨u, hu, hkept, hread⟩ := copyChar_mute (f := respond k) (.inr hdrops)
    exact ⟨u, hu, ⟨hkept.console.trans h.console, hkept.termios ▸ h.echo,
      hkept.writeQ ▸ h.sound, hkept.writeQ ▸ h.chars⟩, hkept.termios, hread ▸ hle⟩
  rw [copyChar]
  rw [drops] at hdrops
  cases haction : t.termios.action t.readQ.first with
  | drop | stop | start =>
    rw [haction] at hdrops
    exact absurd rfl hdrops
  | erase =>
    rw [haction] at hdrops
    have hnil : NoEscZ t.nextChar.esc ([] ++ []) := trivial
    obtain ⟨q, v, hecho, hsound, hq⟩ := echo_settles hnext (length_eraseChars t.secondary.last)
      (by simpa using noEscZ_eraseChars hnil t.secondary.last) (respond k)
    refine ⟨{ t.nextChar with writeQ := q, vt := v, secondary := t.secondary.dec }, ?_,
      ⟨h.console, h.echo, hsound, hq⟩, rfl, hle⟩
    exact (if_neg fun h => hdrops (decide_eq_true h)).trans (congrArg (Option.map _) hecho)
  | queue c =>
    have hnext' : Settled { t.nextChar with
        secondary := if t.termios.endsLine c then
          { t.secondary with data := t.secondary.data + 1 } else t.secondary } :=
      ⟨h.console, h.echo, h.sound, h.chars⟩
    dsimp only
    rw [queueChar_eq]
    by_cases hz : t.esc = true ∧ c = 0x5a
    · obtain ⟨hesc, rfl⟩ := hz
      obtain ⟨q, v, hecho, hsound, hq⟩ := echo_answers hnext' hesc
      have hnine : weight t.termios t.readQ.first = 9 := by
        rw [weight, haction]
        exact if_pos rfl
      have hput := readWeight_putAll t.termios t.readQ.getch fun _ => weight_response t.termios
      have hseven : response.length = 7 := rfl
      obtain ⟨u, hu, hsettled, htm, hw⟩ := ih (putResponse { t.nextChar with
          secondary := if t.termios.endsLine 0x5a then
            { t.secondary with data := t.secondary.data + 1 } else t.secondary
          writeQ := q
          vt := v }) ⟨h.console, h.echo, hsound, hq⟩
        (show readWeight t.termios (t.readQ.getch.putAll response) < _ by omega)
      change readWeight t.termios u.readQ ≤
        readWeight t.termios (t.readQ.getch.putAll response) at hw
      refine ⟨{ u with secondary := u.secondary.putch 0x5a }, ?_,
        ⟨hsettled.console, hsettled.echo, hsettled.sound, hsettled.chars⟩, htm,
        show readWeight t.termios u.readQ ≤ _ by omega⟩
      exact congrArg (Option.map _) ((hecho (respond k)).trans hu)
    · obtain ⟨q, v, hecho, hsound, hq⟩ := echo_settles hnext' (length_echoChars t.termios c)
        (noEscZ_echoChars t.termios c _ hz) (respond k)
      exact ⟨_, congrArg (Option.map _) hecho, ⟨h.console, h.echo, hsound, hq⟩, rfl, hle⟩

/-- As many rounds as the weight are enough, and as many nested calls. -/
theorem copyLoop_settles {w : Nat} (h : t.Settled) (hw : readWeight t.termios t.readQ < w)
    (hn : w ≤ n) (hk : w ≤ k + 1) :
    Settles (copyLoop (respond k) n t) t.termios (readWeight t.termios t.readQ) := by
  induction w generalizing t n k with
  | zero => omega
  | succ w ih =>
    obtain ⟨n, rfl⟩ := Nat.exists_eq_add_of_le' (Nat.zero_lt_of_lt hn)
    rw [copyLoop]
    split
    · exact ⟨t, rfl, h, rfl, Nat.le_refl _⟩
    · next hgo =>
      have hne := (not_or.mp hgo).1
      have hweight := readWeight_getch t.termios hne
      have hpos := weight_pos t.termios t.readQ.first
      obtain ⟨u, hu, hsettled, htm, hle⟩ := copyChar_settles (k := k) h hne fun t' ht' hlt => by
        obtain ⟨k, rfl⟩ : ∃ m, k = m + 1 := Nat.exists_eq_add_of_le' (by omega)
        exact ih (n := k + 1) (k := k) ht' (by omega) (by omega) (by omega)
      obtain ⟨v, hv, hsettled', htm', hle'⟩ := ih hsettled (by rw [htm]; omega)
        (Nat.le_of_succ_le_succ hn) (Nat.le_of_succ_le hk)
      rw [htm] at hle' htm'
      exact ⟨v, Option.bind_eq_some_iff.mpr ⟨u, hu, hv⟩, hsettled', htm', by omega⟩

/-! ### The outer call -/

theorem Kept.undisturbed (h : Kept t u) (ht : t.termios.echo = false ∨ t.secondary.full = true ∨
    answersLeft t.termios.verase t.vt t.writeQ.contents = 0) : u.Undisturbed := by
  rw [Undisturbed, h.termios, h.vt, h.writeQ]
  rcases h.secondary with hecho | hsec
  · exact .inl hecho
  · rw [hsec]
    exact ht.imp_right (.imp_right .inl)

theorem conLoop_undisturbed (hk : 9208 ≤ k) (hc : t.console = true) (hs : t.writeQ.Sound)
    (hn : t.writeQ.chars = n) (h : t.Undisturbed) :
    ∃ u, conLoop (respond k) n t = some u ∧ u.writeQ.Sound ∧ u.writeQ.chars = 0 := by
  induction n generalizing t with
  | zero => exact ⟨t, rfl, hs, hn⟩
  | succ n ih =>
    obtain ⟨hne, hchars⟩ := Queue.getch_of_chars hn
    rw [Undisturbed, Queue.contents_eq_cons hne, answersLeft] at h
    rw [conLoop_succ]
    split
    · next hans =>
      by_cases hlast : t.termios.echo = true ∧ n = 0
      · obtain ⟨hecho, rfl⟩ := hlast
        obtain ⟨k, rfl⟩ := Nat.exists_eq_add_of_le' (Nat.zero_lt_of_lt hk)
        obtain ⟨u, hu, hsettled, -, -⟩ := copyLoop_settles (t := t.afterChar.putResponse)
          ⟨hc, hecho, hs.getch hne, hchars⟩ (readWeight_lt _ _) hk hk
        exact ⟨u, Option.bind_eq_some_iff.mpr ⟨u, hu, rfl⟩, hsettled.sound, hsettled.chars⟩
      have hmute : t.termios.echo = false ∨ t.secondary.full = true ∨
          answersLeft t.termios.verase t.afterChar.vt t.writeQ.getch.contents = 0 ∧
            ∀ c ∈ t.putResponse.readQ.contents, t.drops c = true := by
        refine or_iff_not_imp_left.mpr fun hecho => ?_
        have hrest : t.writeQ.getch.contents ≠ [] := by
          rw [← List.length_pos_iff, Queue.length_contents, hchars]
          exact Nat.pos_of_ne_zero fun h0 => hlast ⟨by simpa using hecho, h0⟩
        obtain ⟨hstate, hfirst⟩ := of_decide_eq_true hans
        rw [if_pos ⟨hstate, hfirst, hrest⟩] at h
        refine (h.resolve_left hecho).imp_right fun h => ?_
        have h := h.resolve_left (by omega)
        exact ⟨Nat.add_left_cancel h.1, h.2⟩
      obtain ⟨v, hv, hkept, -⟩ := respond_mute (t := t.afterChar) (le_trans (by decide) hk)
        (hmute.imp_right (.imp_right And.right))
      obtain ⟨u, hu, hend⟩ := ih (hkept.console.trans hc) (hkept.writeQ ▸ hs.getch hne)
        (hkept.writeQ ▸ hchars) (hkept.undisturbed (hmute.imp_right (.imp_right And.left)))
      exact ⟨u, Option.bind_eq_some_iff.mpr ⟨v, hv, hu⟩, hend⟩
    · next hans =>
      rw [if_neg fun h => hans (decide_eq_true ⟨h.1, h.2.1⟩), Nat.zero_add] at h
      exact ih (t := t.afterChar) hc (hs.getch hne) hchars h

theorem conLoop_disturbed (hk : 1024 ≤ k) (hc : t.console = true) (hecho : t.termios.echo = true)
    (hroom : ¬ t.secondary.full = true) (hs : t.writeQ.Sound) (hn : t.writeQ.chars = n)
    (hleft : answersLeft t.termios.verase t.vt t.writeQ.contents ≠ 0)
    (hloud : answersLeft t.termios.verase t.vt t.writeQ.contents = 1 →
      ∃ c ∈ t.putResponse.readQ.contents, t.drops c = false)
    (h : conLoop (respond k) n t = some u) : u.writeQ.Broken := by
  induction n generalizing t with
  | zero =>
    rw [Queue.contents_eq_nil hn] at hleft
    exact absurd rfl hleft
  | succ n ih =>
    obtain ⟨hne, hchars⟩ := Queue.getch_of_chars hn
    rw [Queue.contents_eq_cons hne, answersLeft] at hleft hloud
    have hrest : t.writeQ.getch.contents ≠ [] := by
      intro hnil
      simp [hnil, answersLeft] at hleft
    rw [conLoop_succ] at h
    split at h
    · next hans =>
      obtain ⟨hstate, hfirst⟩ := of_decide_eq_true hans
      obtain ⟨v, hv, hvu⟩ := Option.bind_eq_some_iff.mp h
      rw [if_pos ⟨hstate, hfirst, hrest⟩] at hleft hloud
      by_cases hkeeps : ∃ c ∈ t.putResponse.readQ.contents, t.drops c = false
      · -- the echo takes what is left, and the loop goes on
        have hq : t.writeQ.getch.Within n := .inr ⟨hs.getch hne, Nat.le_of_eq hchars⟩
        have hzero := respond_loud (t := t.afterChar) hc hq hecho hroom hkeeps hv
        have htidied := respond_tidy k t.afterChar v n hc hq hv
        obtain ⟨m, rfl⟩ : ∃ m, n = m + 1 := by
          refine Nat.exists_eq_succ_of_ne_zero fun h0 =>
            hrest (Queue.contents_eq_nil (hchars.trans h0))
        exact conLoop_broken (respond_tidy k) (htidied.console.trans hc)
          (hzero.mono (Nat.zero_le m)) hvu
      · have hall : ∀ c ∈ t.putResponse.readQ.contents, t.drops c = true := by simpa using hkeeps
        obtain ⟨w, hw, hkept, hend⟩ := respond_mute (t := t.afterChar) hk (.inr (.inr hall))
        cases hv.symm.trans hw
        have hsec : v.secondary = t.secondary := hkept.secondary_eq hecho
        have hleft' : answersLeft v.termios.verase v.vt v.writeQ.contents ≠ 0 := by
          rw [hkept.termios, hkept.vt, hkept.writeQ]
          exact fun h0 => hkeeps (hloud (congrArg (1 + ·) h0))
        refine ih (hkept.console.trans hc) (hkept.termios ▸ hecho) (hsec ▸ hroom)
          (hkept.writeQ ▸ hs.getch hne) (hkept.writeQ ▸ hchars) hleft' (fun _ => ?_) hvu
        obtain ⟨c, hmem, hkeep⟩ := response_loud v
        have hput := (Queue.putAll_spec (q := v.readQ) (l := response)
          (by rw [Queue.left_eq, hend.resolve_left (hsec ▸ hroom)]; decide)).1
        exact ⟨c, hput.symm ▸ List.mem_append_right _ hmem, hkeep⟩
    · next hans =>
      rw [if_neg fun h => hans (decide_eq_true ⟨h.1, h.2.1⟩), Nat.zero_add] at hleft hloud
      exact ih (t := t.afterChar) hc hecho hroom (hs.getch hne) hchars hleft hloud h

end TtyStruct

open TtyStruct

variable [Screen σ]

/-- `con_write` consumes what is queued if and only if no answer is echoed while characters are
left. -/
theorem conWrite_consumes_iff {t : TtyStruct σ} (hc : t.console = true) (hs : t.writeQ.Sound) :
    t.Consumes ↔ t.Undisturbed := by
  simp only [Consumes, write, if_pos hc]
  constructor
  · rintro ⟨enough, hall⟩
    obtain ⟨u, hu, hsound, -⟩ := hall (max enough 1024) (Nat.le_max_left _ _)
    by_contra hdisturbed
    obtain ⟨hecho, hroom, hleft, hloud⟩ := by simpa only [Undisturbed, not_or] using hdisturbed
    refine (conLoop_disturbed (Nat.le_max_right _ _) hc (by simpa using hecho) hroom hs rfl hleft
      (fun h1 => ?_) hu).not_sound hsound
    simpa [h1] using hloud
  · intro h
    exact ⟨9208, fun fuel hfuel => conLoop_undisturbed hfuel hc hs rfl h⟩

theorem sound_consoleTty (bytes : List UInt8) : (consoleTty.fill bytes).writeQ.Sound := by
  obtain ⟨q, b, heq, -, hq⟩ := fill_spec bytes consoleTty
  rw [heq]
  exact hq (Queue.sound_empty 0)

/-- The console writes `hi` and an ESC Z at the end, whose answer it echoes. -/
theorem conWrite_consumes_hi : (consoleTty.fill [104, 105, 27, 0x5a]).Consumes := by
  refine (conWrite_consumes_iff (by decide +kernel) (sound_consoleTty _)).mpr
    (.inr (.inr (.inl ?_)))
  decide +kernel

/-- For ESC Z A the echo of the answer takes the A, and the outer call takes it again. -/
theorem conWrite_takes_from_empty : ¬ (consoleTty.fill [27, 0x5a, 65]).Consumes := by
  rintro ⟨enough, hall⟩
  obtain ⟨u, hu, hsound, -⟩ := hall (max enough 1024) (Nat.le_max_left _ _)
  rw [write, if_pos (by decide +kernel)] at hu
  refine (conLoop_disturbed (Nat.le_max_right _ _) (by decide +kernel) (by decide +kernel)
    (by decide +kernel) (sound_consoleTty _) rfl (by decide +kernel) (fun _ => ?_) hu).not_sound
    hsound
  decide +kernel

end Linux001.Tty
