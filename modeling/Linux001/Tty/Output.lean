import Linux001.Tty.Echo

/-! One call of `tty_write`, from one round of its inner loop to the next. Between two rounds the
write queue is drained, by `tty->write` and the transmitter, and filled with echo. -/

namespace Linux001.Tty.Output

open TtyStruct

/-- At the outer loop, in `sleep_if_full`, at the inner loop, or back. -/
inductive Position
  | outer | asleep | inner | returned (n : Nat)

/-- A call of `tty_write`; `out` are the characters that it put. -/
structure Writer where
  position : Position
  queue : Queue
  crFlag : Bool
  done : Nat
  left : List UInt8
  out : List UInt8

inductive Event
  | run
  | other (q : Queue)

namespace Writer

variable (tm : Termios) (w : Writer)

def start (q : Queue) (bytes : List UInt8) : Writer := ⟨.outer, q, false, 0, bytes, []⟩

def putch (c : UInt8) : Writer := { w with queue := w.queue.putch c, out := w.out ++ [c] }

def round (c : UInt8) (rest : List UInt8) : Writer :=
  if (post tm w.crFlag c).1 then { w.putch 13 with crFlag := true }
  else { w.putch (post tm w.crFlag c).2 with crFlag := false, done := w.done + 1, left := rest }

def proceed : Writer :=
  match w.position, w.left with
  | .outer, [] => { w with position := .returned w.done }
  | .outer, _ :: _ => { w with position := if w.queue.full then .asleep else .inner }
  | .asleep, _ => if w.queue.left < 128 then w else { w with position := .inner }
  | .inner, [] => { w with position := .outer }
  | .inner, c :: rest =>
    if w.queue.full then { w with position := .outer } else w.round tm c rest
  | .returned _, _ => w

def step : Event → Writer
  | .run => w.proceed tm
  | .other q => { w with queue := q }

def run (es : List Event) : Writer := es.foldl (step tm) w

end Writer

def translation (tm : Termios) (c : UInt8) : List UInt8 :=
  if tm.opost then
    let c := if c = 13 ∧ tm.ocrnl then 10 else if c = 10 ∧ tm.onlret then 13 else c
    (if c = 10 ∧ tm.onlcr then [13] else []) ++ [if tm.olcuc then tm.toupper c else c]
  else [c]

variable {tm : Termios} {w : Writer} {bytes : List UInt8}

theorem translation_eq (tm : Termios) (c : UInt8) :
    translation tm c = (if (post tm false c).1 then [13] else []) ++ [(post tm false c).2] := by
  unfold translation post
  split
  · simp only [Bool.not_false, true_and, decide_eq_true_eq]
  · rfl

theorem postAll_eq (tm : Termios) (bytes : List UInt8) :
    postAll tm false bytes = bytes.flatMap (translation tm) := by
  induction bytes with
  | nil => rfl
  | cons c bytes ih =>
    rw [postAll, ih, List.flatMap_cons, translation_eq, List.append_assoc]
    rfl

theorem post_true (tm : Termios) (c : UInt8) : (post tm true c).1 = false := by
  unfold post
  split
  · simp
  · rfl

structure Invariant (tm : Termios) (bytes : List UInt8) (w : Writer) : Prop where
  out : w.out ++ postAll tm w.crFlag w.left = bytes.flatMap (translation tm)
  count : w.done + w.left.length = bytes.length
  returned : ∀ n, w.position = .returned n → w.left = [] ∧ n = w.done

theorem round_out (c : UInt8) (rest : List UInt8) :
    ∃ c', (w.round tm c rest).out = w.out ++ [c'] ∧
      (w.round tm c rest).queue = w.queue.putch c' := by
  unfold Writer.round
  split
  · exact ⟨13, rfl, rfl⟩
  · exact ⟨_, rfl, rfl⟩

theorem Invariant.round {c : UInt8} {rest : List UInt8} (h : Invariant tm bytes w)
    (hleft : w.left = c :: rest) (hpos : w.position = .inner) :
    Invariant tm bytes (w.round tm c rest) := by
  obtain ⟨hout, hcount, -⟩ := h
  rw [hleft, postAll] at hout
  rw [hleft, List.length_cons] at hcount
  unfold Writer.round
  split
  · next hcr =>
    refine ⟨?_, by simpa [Writer.putch, hleft] using hcount, fun n hn => ?_⟩
    · rw [← hout, if_pos hcr, post_snd tm w.crFlag true]
      simp [Writer.putch, hleft, postAll, post_true]
    · cases hpos.symm.trans hn
  · next hcr =>
    refine ⟨?_, ?_, fun n hn => by cases hpos.symm.trans hn⟩
    · rw [← hout, if_neg hcr]
      simp [Writer.putch]
    · simp only
      omega

theorem Invariant.step (h : Invariant tm bytes w) (e : Event) :
    Invariant tm bytes (w.step tm e) := by
  cases e with
  | other q => exact ⟨h.out, h.count, h.returned⟩
  | run =>
    unfold Writer.step Writer.proceed
    simp only
    split
    · next hleft => exact ⟨h.out, h.count, fun n hn => ⟨hleft, by simpa using hn.symm⟩⟩
    · refine ⟨h.out, h.count, fun n hn => ?_⟩
      split at hn <;> exact absurd hn nofun
    · split
      · exact h
      · exact ⟨h.out, h.count, nofun⟩
    · exact ⟨h.out, h.count, nofun⟩
    · next hpos hleft =>
      split
      · exact ⟨h.out, h.count, nofun⟩
      · exact h.round hleft hpos
    · exact h

theorem Invariant.run (h : Invariant tm bytes w) (es : List Event) :
    Invariant tm bytes (w.run tm es) :=
  List.foldlRecOn es _ h fun _ hw e _ => hw.step e

theorem step_out (e : Event) : (w.step tm e).out = w.out ∨ w.queue.full = false ∧
    ∃ c, (w.step tm e).out = w.out ++ [c] ∧ (w.step tm e).queue = w.queue.putch c := by
  cases e with
  | other q => exact .inl rfl
  | run =>
    unfold Writer.step Writer.proceed
    simp only
    split
    case h_3 => split <;> exact .inl rfl
    case h_5 =>
      split
      · exact .inl rfl
      · next hroom => exact .inr ⟨Bool.eq_false_iff.mpr hroom, round_out _ _⟩
    all_goals exact .inl rfl

/-! ### The call returns -/

def togo (w : Writer) : Nat :=
  let n := 2 * w.left.length - w.crFlag.toNat
  match w.position with
  | .outer => if w.left = [] then 1 else n + 3
  | .asleep => n + 3
  | .inner => n + 2
  | .returned _ => 0

theorem returned_of_togo (h : togo w = 0) : ∃ n, w.position = .returned n := by
  cases hpos : w.position with
  | returned n => exact ⟨n, rfl⟩
  | outer =>
    simp only [togo, hpos] at h
    split at h <;> omega
  | _ =>
    simp only [togo, hpos] at h
    omega

theorem togo_proceed (tm : Termios) (hroom : 128 ≤ w.queue.left) :
    togo (w.proceed tm) ≤ togo w - 1 := by
  have hfull : ¬ w.queue.full = true := by
    rw [Queue.full, decide_eq_true_eq]
    omega
  unfold Writer.proceed
  split
  · simp [togo]
  · next hpos hleft => simp [togo, hpos, hleft, hfull]
  · next hpos => simp [togo, hpos, Nat.not_lt.mpr hroom]
  · next hpos hleft => simp [togo, hpos, hleft]
  · next hpos hleft =>
    rw [if_neg hfull]
    unfold Writer.round
    split
    · next hcr =>
      have hflag : w.crFlag = false := by
        by_contra hset
        rw [Bool.eq_true_of_not_eq_false hset, post_true] at hcr
        exact absurd hcr (by decide)
      simp only [togo, Writer.putch, hpos, hleft, hflag, Bool.toNat_true, Bool.toNat_false,
        List.length_cons]
      omega
    · have := w.crFlag.toNat_le
      simp only [togo, Writer.putch, hpos, hleft, List.length_cons, Bool.toNat_false]
      omega
  · next hpos => simp [togo, hpos]

/-- The queue is drained, and the call goes on, once for each queue. -/
def drains (qs : List Queue) : List Event := qs.flatMap fun q => [.other q, .run]

theorem togo_drains (tm : Termios) {qs : List Queue} (hroom : ∀ q ∈ qs, 128 ≤ q.left) :
    togo (w.run tm (drains qs)) ≤ togo w - qs.length := by
  induction qs generalizing w with
  | nil => exact Nat.le_refl _
  | cons q qs ih =>
    have hstep := togo_proceed tm (w := { w with queue := q }) (hroom q List.mem_cons_self)
    have hrest := ih (w := ({ w with queue := q } : Writer).proceed tm)
      fun q' hq' => hroom q' (List.mem_cons_of_mem _ hq')
    have hsame : togo { w with queue := q } = togo w := rfl
    refine Nat.le_trans hrest ?_
    rw [List.length_cons]
    omega

/-- `tty_write` puts the translation of its buffer, where there is room, and returns its length if
there is room often enough. -/
theorem ttyWrite_output (tm : Termios) (bytes : List UInt8) (q : Queue) (es : List Event) :
    let w := (Writer.start q bytes).run tm es
    w.out <+: bytes.flatMap (translation tm) ∧
    (∀ n, w.position = .returned n →
      n = bytes.length ∧ w.out = bytes.flatMap (translation tm)) ∧
    (∀ e, (w.step tm e).out = w.out ∨ w.queue.full = false ∧
      ∃ c, (w.step tm e).out = w.out ++ [c] ∧ (w.step tm e).queue = w.queue.putch c) ∧
    ∀ qs : List Queue, (∀ q ∈ qs, 128 ≤ q.left) → 2 * bytes.length + 3 ≤ qs.length →
      ∃ n, (w.run tm (drains qs)).position = .returned n := by
  intro w
  have hstart : Invariant tm bytes (.start q bytes) :=
    ⟨postAll_eq tm bytes, Nat.zero_add _, nofun⟩
  have hinv : Invariant tm bytes w := hstart.run es
  refine ⟨hinv.out ▸ List.prefix_append .., fun n hn => ?_, fun e => step_out e,
    fun qs hroom hlen => ?_⟩
  · obtain ⟨hleft, rfl⟩ := hinv.returned n hn
    have hout := hinv.out
    have hcount := hinv.count
    rw [hleft, List.length_nil] at hcount
    rw [hleft, postAll, List.append_nil] at hout
    exact ⟨hcount, hout⟩
  · have hbound : togo w ≤ 2 * bytes.length + 3 := by
      have hcount := hinv.count
      unfold togo
      cases w.position with
      | outer => simp only; split <;> omega
      | _ => simp only; omega
    have hzero : togo (w.run tm (drains qs)) = 0 := by
      have := togo_drains tm (w := w) hroom
      omega
    exact returned_of_togo hzero

end Linux001.Tty.Output
