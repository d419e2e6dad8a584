import Linux001.ProofKit.Sizes

/-! Runs of a machine given by a partial step function: the states that a machine reaches by steps
whose labels all meet a condition, and the rules that carry an invariant along a run. -/

namespace Linux001.ProofKit

variable {σ ε : Type*} {step : σ → ε → Option σ} {ok : σ → ε → Prop} {es : List ε}
  {check : σ → ε → Bool}

/-- One step from `s` to `t`, by a label that meets `ok` at `s`. -/
def Next (step : σ → ε → Option σ) (ok : σ → ε → Prop) (s t : σ) : Prop :=
  ∃ e, ok s e ∧ step s e = some t

/-- `t` is reached from `s` by steps whose labels all meet `ok`. -/
abbrev Reaches (step : σ → ε → Option σ) (ok : σ → ε → Prop) : σ → σ → Prop :=
  Relation.ReflTransGen (Next step ok)

/-- What every step keeps holds at the end of every run. -/
theorem Reaches.invariant {P : σ → Prop} (hstep : ∀ s e t, P s → ok s e → step s e = some t → P t)
    {s t : σ} (h : Reaches step ok s t) (hs : P s) : P t := by
  induction h with
  | refl => exact hs
  | tail _ hn ih =>
    obtain ⟨e, hok, he⟩ := hn
    exact hstep _ e _ ih hok he

/-- The state after the labels `es`, if the machine can take them all. -/
def run (step : σ → ε → Option σ) : List ε → σ → Option σ
  | [], s => some s
  | e :: es, s => (step s e).bind (run step es)

@[simp] theorem run_nil (s : σ) : run step [] s = some s := rfl

@[simp] theorem run_cons (e : ε) (es : List ε) (s : σ) :
    run step (e :: es) s = (step s e).bind (run step es) := rfl

/-- A run whose labels meet the condition reaches its last state. -/
theorem reaches_of_run {s t : σ} (h : run step es s = some t)
    (hok : ∀ e ∈ es, ∀ s, ok s e := by exact fun _ _ _ => trivial) : Reaches step ok s t := by
  induction es generalizing s with
  | nil =>
    obtain rfl : s = t := by simpa using h
    exact .refl
  | cons e es ih =>
    obtain ⟨u, hu, hrest⟩ := Option.bind_eq_some_iff.mp h
    exact .head ⟨e, hok e List.mem_cons_self s, hu⟩
      (ih hrest fun e' he' => hok e' (List.mem_cons_of_mem _ he'))

theorem reaches_of_checked (hcheck : ∀ s e, check s e = true → ok s e) {s t : σ}
    (h : run (fun s e => if check s e then step s e else none) es s = some t) :
    Reaches step ok s t := by
  induction es generalizing s with
  | nil =>
    obtain rfl : s = t := by simpa using h
    exact .refl
  | cons e es ih =>
    obtain ⟨u, hu, hrest⟩ := Option.bind_eq_some_iff.mp h
    obtain ⟨hc, hu⟩ := Option.ite_none_right_eq_some.mp hu
    exact .head ⟨e, hcheck s e hc, hu⟩ (ih hrest)

/-- The labels `es` meet the condition in the states where the machine takes them. -/
def Respects (step : σ → ε → Option σ) (ok : σ → ε → Prop) : List ε → σ → Prop
  | [], _ => True
  | e :: es, s => ok s e ∧ ∀ t, step s e = some t → Respects step ok es t

theorem respects_of_checked (hcheck : ∀ s e, check s e = true → ok s e) {s t : σ}
    (h : run (fun s e => if check s e then step s e else none) es s = some t) :
    Respects step ok es s ∧ run step es s = some t := by
  induction es generalizing s with
  | nil => exact ⟨trivial, h⟩
  | cons e es ih =>
    obtain ⟨u, hu, hrest⟩ := Option.bind_eq_some_iff.mp h
    obtain ⟨hc, hu⟩ := Option.ite_none_right_eq_some.mp hu
    obtain ⟨hok, hrun⟩ := ih hrest
    refine ⟨⟨hcheck s e hc, fun t ht => ?_⟩, ?_⟩
    · cases hu.symm.trans ht
      exact hok
    · rw [run_cons, hu]
      exact hrun

/-- Labels that do not change what `R` relates can be left out of a run. -/
theorem run_filter {R : σ → σ → Prop} {keep : ε → Bool}
    (hkeep : ∀ {s e t x}, R s x → ok s e → step s e = some t → keep e = true →
      ∃ y, step x e = some y ∧ R t y)
    (hdrop : ∀ {s e t x}, R s x → ok s e → step s e = some t → keep e = false → R t x)
    {s t x : σ} (hr : R s x) (hok : Respects step ok es s)
    (h : run step es s = some t) : ∃ y, run step (es.filter keep) x = some y ∧ R t y := by
  induction es generalizing s x with
  | nil =>
    obtain rfl : s = t := by simpa using h
    exact ⟨x, rfl, hr⟩
  | cons e es ih =>
    obtain ⟨u, hu, hrest⟩ := Option.bind_eq_some_iff.mp h
    cases hk : keep e with
    | true =>
      obtain ⟨y, hy, hry⟩ := hkeep hr hok.1 hu hk
      obtain ⟨z, hz, hrz⟩ := ih hry (hok.2 u hu) hrest
      refine ⟨z, ?_, hrz⟩
      rw [List.filter_cons_of_pos hk, run_cons, hy]
      exact hz
    | false =>
      rw [List.filter_cons_of_neg (by simp [hk])]
      exact ih (hdrop hr hok.1 hu hk) (hok.2 u hu) hrest

end Linux001.ProofKit
