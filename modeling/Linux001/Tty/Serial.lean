import Linux001.Tty.Overrun

/-! The receive interrupt of `kernel/rs_io.nasm` for the two serial ports. The number of the
terminal for `do_tty_interrupt` is computed from the address of the port's queue in `table_list`. -/

namespace Linux001.Tty.Serial

open Function Console TtyStruct

variable {σ : Type*}

/-- The terminals, and the indices for which `copy_to_cooked` was called. -/
structure Table (σ : Type*) where
  ttys : Fin 3 → TtyStruct σ
  cooked : List Nat

inductive Port
  | rs1 | rs2

def Port.channel : Port → Fin 3
  | .rs1 => 1
  | .rs2 => 2

/-- The offset of the port's queues in `table_list`, in bytes. -/
def Port.offset : Port → Nat
  | .rs1 => 16
  | .rs2 => 32

/-- The entries of `table_list`: the terminal, and whether it is the read queue. -/
def tableList : List (Fin 3 × Bool) :=
  [(0, true), (0, false), (1, true), (1, false), (2, true), (2, false)]

variable [Screen σ]

/-- `do_tty_interrupt`, `none` for an index outside of `tty_table`. -/
def doTtyInterrupt (fuel : Nat) (w : Table σ) (tty : Nat) : Option (Table σ) :=
  if h : tty < 3 then
    (copyToCooked fuel (w.ttys ⟨tty, h⟩)).map fun t =>
      ⟨update w.ttys ⟨tty, h⟩ t, w.cooked ++ [tty]⟩
  else none

/-- `read_char`, where `rcx` is the offset of the queue in `table_list`. -/
def readChar (fuel : Nat) (rcx : Nat) (w : Table σ) (al : UInt8) : Option (Table σ) :=
  match tableList[rcx / 8]? with
  | some (ch, true) =>
    let t := w.ttys ch
    if t.readQ.full then some w
    else
      doTtyInterrupt fuel
        { w with
          ttys := update w.ttys ch
            { t with readQ := t.readQ.putch al, entered := t.entered ++ [al] } }
        (rcx >>> 3)
  | _ => none

def receive (fuel : Nat) (p : Port) (bytes : List UInt8) (w : Table σ) : Option (Table σ) :=
  bytes.foldlM (readChar fuel p.offset) w

def Served (p : Port) (bytes : List UInt8) (w : Table σ) : Prop :=
  ∃ fuel w', receive fuel p bytes w = some w' ∧
    (w'.ttys p.channel).entered = (w.ttys p.channel).entered ++ bytes ∧
    w'.cooked = w.cooked ++ List.replicate bytes.length p.channel.val

theorem readChar_eq (fuel : Nat) (p : Port) (w : Table σ) (c : UInt8) :
    readChar fuel p.offset w c =
      if (w.ttys p.channel).readQ.full then some w
      else
        doTtyInterrupt fuel
          { w with
            ttys := update w.ttys p.channel
              { w.ttys p.channel with
                readQ := (w.ttys p.channel).readQ.putch c
                entered := (w.ttys p.channel).entered ++ [c] } }
          (2 * p.channel.val) := by
  cases p with
  | rs1 => rfl
  | rs2 => rfl

theorem cooked_doTtyInterrupt {fuel n : Nat} {w w' : Table σ}
    (h : doTtyInterrupt fuel w n = some w') : w'.cooked = w.cooked ++ [n] := by
  unfold doTtyInterrupt at h
  split at h
  · obtain ⟨t, -, rfl⟩ := Option.map_eq_some_iff.mp h
    rfl
  · exact absurd h (by simp)

theorem cooked_receive {fuel : Nat} {p : Port} {bytes : List UInt8} {w w' : Table σ}
    (h : receive fuel p bytes w = some w') : w.cooked <+: w'.cooked := by
  induction bytes generalizing w with
  | nil =>
    obtain rfl : w = w' := by simpa [receive] using h
    exact List.prefix_rfl
  | cons c bytes ih =>
    obtain ⟨u, hu, hrest⟩ := Option.bind_eq_some_iff.mp
      ((List.foldlM_cons (f := readChar fuel p.offset)).symm.trans h)
    refine List.IsPrefix.trans ?_ (ih hrest)
    rw [readChar_eq] at hu
    split at hu
    · obtain rfl : w = u := by simpa using hu
      exact List.prefix_rfl
    · rw [cooked_doTtyInterrupt hu]
      exact List.prefix_append ..

/-- With room, the terminal is served if and only if nothing is received. -/
theorem served_iff (p : Port) (bytes : List UInt8) (w : Table σ)
    (hroom : bytes.length ≤ (w.ttys p.channel).readQ.left) : Served p bytes w ↔ bytes = [] := by
  constructor
  · rintro ⟨fuel, w', h, -, hcooked⟩
    cases bytes with
    | nil => rfl
    | cons c bytes =>
      exfalso
      obtain ⟨u, hu, hrest⟩ := Option.bind_eq_some_iff.mp
        ((List.foldlM_cons (f := readChar fuel p.offset)).symm.trans h)
      have hnot : ¬ (w.ttys p.channel).readQ.full = true := by
        rw [Queue.full, decide_eq_true_eq]
        exact fun hzero => by simp [hzero] at hroom
      rw [readChar_eq, if_neg hnot] at hu
      -- the first call was for twice the number of the terminal
      have hcall := cooked_receive hrest
      rw [cooked_doTtyInterrupt hu, hcooked, List.length_cons, List.replicate_succ,
        List.prefix_append_right_inj, List.cons_prefix_cons] at hcall
      have hchannel : 2 * p.channel.val ≠ p.channel.val := by
        cases p with
        | rs1 => decide
        | rs2 => decide
      exact hchannel hcall.1
  · rintro rfl
    exact ⟨0, w, rfl, by simp, by simp⟩

def bootTable : Table Vga := ⟨fun _ => serialTty, []⟩

theorem served_iff_boot : ¬ Served .rs1 [65] bootTable :=
  fun h => absurd ((served_iff .rs1 [65] bootTable (by decide)).mp h) (by decide)

/-- A byte from the first port is cooked for the second, and the others outside the table. -/
theorem receive_wrong_terminal :
    ((receive 2 .rs1 [10] bootTable).map fun w =>
      ((w.ttys 1).readQ.contents, (w.ttys 1).secondary.chars, w.cooked)) = some ([10], 0, [2]) ∧
    ∀ fuel, (receive fuel .rs2 [10] bootTable).isNone := by
  refine ⟨by decide +kernel, fun fuel => ?_⟩
  rw [receive, List.foldlM_cons, readChar_eq, if_neg (by decide)]
  rfl

end Linux001.Tty.Serial
