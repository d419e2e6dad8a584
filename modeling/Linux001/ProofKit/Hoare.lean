import Linux001.ProofKit.Sizes

/-! Rules for programs that change a state and can stop with an error. `Returns m s Q` is total
correctness: from `s` the program returns, with `Q`. `Ensures m s Q` is partial correctness: `Q`
holds if the program returns. -/

namespace Linux001.ProofKit

variable {ε σ α β : Type} {m : EStateM ε σ α} {s : σ} {Q R : α → σ → Prop} {a : α} {t : σ} {e : ε}
  {f : α → EStateM ε σ β} {b : β} {c : Prop} {m' : EStateM ε σ α} {I : Nat → σ → Prop} {n : Nat}

/-- The program returns in a state and with a result as `Q` says. -/
def Returns (m : EStateM ε σ α) (s : σ) (Q : α → σ → Prop) : Prop :=
  ∃ a t, m s = .ok a t ∧ Q a t

def Ensures (m : EStateM ε σ α) (s : σ) (Q : α → σ → Prop) : Prop :=
  ∀ a t, m s = .ok a t → Q a t

theorem Returns.ensures (h : Returns m s Q) : Ensures m s Q := by
  obtain ⟨a, t, hm, ha⟩ := h
  intro b u hb
  cases hm.symm.trans hb
  exact ha

theorem Returns.imp (h : Returns m s Q) (hQ : ∀ a t, Q a t → R a t) : Returns m s R := by
  obtain ⟨a, t, hm, ha⟩ := h
  exact ⟨a, t, hm, hQ a t ha⟩

theorem Returns.and_ensures (h : Returns m s Q) (h' : Ensures m s R) :
    Returns m s fun a t => Q a t ∧ R a t := by
  obtain ⟨a, t, hm, ha⟩ := h
  exact ⟨a, t, hm, ha, h' a t hm⟩

theorem Ensures.imp (h : Ensures m s Q) (hQ : ∀ a t, Q a t → R a t) : Ensures m s R :=
  fun a t hm => hQ a t (h a t hm)

theorem returns_of_eq (h : m s = .ok a t) : Returns m s Q ↔ Q a t := by
  constructor
  · rintro ⟨b, u, hb, hQ⟩
    cases h.symm.trans hb
    exact hQ
  · intro hQ
    exact ⟨a, t, h, hQ⟩

theorem ensures_of_eq (h : m s = .ok a t) : Ensures m s Q ↔ Q a t := by
  constructor
  · intro hQ
    exact hQ a t h
  · intro hQ b u hb
    cases h.symm.trans hb
    exact hQ

@[simp] theorem returns_pure : Returns (pure a : EStateM ε σ α) s Q ↔ Q a s :=
  returns_of_eq rfl

@[simp] theorem returns_throw : ¬Returns (throw e : EStateM ε σ α) s Q := by
  rintro ⟨a, t, h, -⟩
  cases h

@[simp] theorem returns_get {Q : σ → σ → Prop} :
    Returns (get : EStateM ε σ σ) s Q ↔ Q s s := returns_of_eq rfl

@[simp] theorem returns_set {Q : PUnit → σ → Prop} :
    Returns (set t : EStateM ε σ PUnit) s Q ↔ Q ⟨⟩ t := returns_of_eq rfl

@[simp] theorem returns_modify {f : σ → σ} {Q : PUnit → σ → Prop} :
    Returns (modify f : EStateM ε σ PUnit) s Q ↔ Q ⟨⟩ (f s) := returns_of_eq rfl

@[simp] theorem ensures_pure : Ensures (pure a : EStateM ε σ α) s Q ↔ Q a s :=
  ensures_of_eq rfl

@[simp] theorem ensures_throw : Ensures (throw e : EStateM ε σ α) s Q := by
  intro a t h
  cases h

@[simp] theorem ensures_get {Q : σ → σ → Prop} :
    Ensures (get : EStateM ε σ σ) s Q ↔ Q s s := ensures_of_eq rfl

@[simp] theorem ensures_set {Q : PUnit → σ → Prop} :
    Ensures (set t : EStateM ε σ PUnit) s Q ↔ Q ⟨⟩ t := ensures_of_eq rfl

@[simp] theorem ensures_modify {f : σ → σ} {Q : PUnit → σ → Prop} :
    Ensures (modify f : EStateM ε σ PUnit) s Q ↔ Q ⟨⟩ (f s) := ensures_of_eq rfl

theorem bind_eq_ok {u : σ} :
    (m >>= f) s = .ok b u ↔ ∃ a t, m s = .ok a t ∧ f a t = .ok b u := by
  change EStateM.bind m f s = .ok b u ↔ _
  unfold EStateM.bind
  cases m s with
  | ok a t =>
    constructor
    · intro h
      exact ⟨a, t, rfl, h⟩
    · rintro ⟨a', t', h, hf⟩
      cases h
      exact hf
  | error e t =>
    constructor
    · intro h
      cases h
    · rintro ⟨a', t', h, -⟩
      cases h

theorem bind_of_eq (h : m s = .ok a t) :
    (m >>= f) s = f a t := by
  change EStateM.bind m f s = f a t
  rw [EStateM.bind, h]

theorem get_bind {f : σ → EStateM ε σ β} : (get >>= f) s = f s s := rfl

@[simp] theorem returns_bind {Q : β → σ → Prop} :
    Returns (m >>= f) s Q ↔ Returns m s fun a t => Returns (f a) t Q := by
  constructor
  · rintro ⟨b, u, h, hQ⟩
    obtain ⟨a, t, hm, hf⟩ := bind_eq_ok.mp h
    exact ⟨a, t, hm, b, u, hf, hQ⟩
  · rintro ⟨a, t, hm, b, u, hf, hQ⟩
    exact ⟨b, u, bind_eq_ok.mpr ⟨a, t, hm, hf⟩, hQ⟩

@[simp] theorem ensures_bind {Q : β → σ → Prop} :
    Ensures (m >>= f) s Q ↔ Ensures m s fun a t => Ensures (f a) t Q := by
  constructor
  · intro h a t hm b u hf
    exact h b u (bind_eq_ok.mpr ⟨a, t, hm, hf⟩)
  · intro h b u hmf
    obtain ⟨a, t, hm, hf⟩ := bind_eq_ok.mp hmf
    exact h a t hm b u hf

theorem returns_ite [Decidable c] :
    Returns (if c then m else m') s Q ↔ (c → Returns m s Q) ∧ (¬c → Returns m' s Q) := by
  by_cases h : c <;> simp [h]

theorem ensures_ite [Decidable c] :
    Ensures (if c then m else m') s Q ↔ (c → Ensures m s Q) ∧ (¬c → Ensures m' s Q) := by
  by_cases h : c <;> simp [h]

theorem Returns.step {Q : β → σ → Prop}
    (h : m s = .ok a t) (hf : Returns (f a) t Q) : Returns (m >>= f) s Q :=
  returns_bind.mpr ((returns_of_eq h).mpr hf)

theorem Returns.bind {Q : β → σ → Prop} (h : Returns m s R)
    (hf : ∀ a t, R a t → Returns (f a) t Q) : Returns (m >>= f) s Q :=
  returns_bind.mpr (h.imp hf)

theorem Ensures.bind {Q : β → σ → Prop} (h : Ensures m s R)
    (hf : ∀ a t, R a t → Ensures (f a) t Q) : Ensures (m >>= f) s Q :=
  ensures_bind.mpr (h.imp hf)

theorem returns_foldlM_range' {f : β → Nat → EStateM ε σ β} {I : Nat → β → σ → Prop}
    (k : Nat) (h0 : I k b s)
    (hstep : ∀ i b s, k ≤ i → i < k + n → I i b s → Returns (f b i) s fun b' t => I (i + 1) b' t) :
    Returns ((List.range' k n).foldlM f b) s fun b' t => I (k + n) b' t := by
  induction n generalizing k b s with
  | zero => exact returns_pure.mpr h0
  | succ n ih =>
    refine (hstep k b s (Nat.le_refl k) (by omega) h0).bind fun b' t ht => ?_
    have := ih (k + 1) ht fun i b s hi hlt => hstep i b s (by omega) (by omega)
    rwa [Nat.add_assoc, Nat.add_comm 1 n] at this

/-- The rule for a loop over `0, …, n - 1` that carries a value. -/
theorem returns_foldlM_range {f : β → Nat → EStateM ε σ β} {I : Nat → β → σ → Prop} (h0 : I 0 b s)
    (hstep : ∀ i b s, i < n → I i b s → Returns (f b i) s fun b' t => I (i + 1) b' t) :
    Returns ((List.range n).foldlM f b) s fun b' t => I n b' t := by
  rw [List.range_eq_range']
  have := returns_foldlM_range' (n := n) 0 h0 fun i b s _ hi => hstep i b s (by omega)
  rwa [Nat.zero_add] at this

/-- Where the program returns `Q` holds, and where it stops `E` holds of the error. -/
def Meets (m : EStateM ε σ α) (s : σ) (Q : α → σ → Prop) (E : ε → Prop) : Prop :=
  match m s with
  | .ok a t => Q a t
  | .error e _ => E e

section Meets

variable {E : ε → Prop}

theorem Meets.ensures (h : Meets m s Q E) : Ensures m s Q := by
  intro a t hm
  rw [Meets, hm] at h
  exact h

theorem Meets.mono {F : ε → Prop} (h : Meets m s Q E) (hQ : ∀ a t, Q a t → R a t)
    (hE : ∀ e, E e → F e) : Meets m s R F := by
  unfold Meets at h ⊢
  cases hm : m s with
  | ok a t =>
    rw [hm] at h
    exact hQ a t h
  | error e t =>
    rw [hm] at h
    exact hE e h

theorem Meets.imp (h : Meets m s Q E) (hQ : ∀ a t, Q a t → R a t) : Meets m s R E :=
  h.mono hQ fun _ he => he

theorem Returns.meets (h : Returns m s Q) : Meets m s Q E := by
  obtain ⟨a, t, hm, ha⟩ := h
  rw [Meets, hm]
  exact ha

theorem Meets.returns (h : Meets m s Q E) (hE : ∀ e, ¬E e) : Returns m s Q := by
  unfold Meets at h
  cases hm : m s with
  | ok a t =>
    rw [hm] at h
    exact ⟨a, t, hm, h⟩
  | error e t =>
    rw [hm] at h
    exact absurd h (hE e)

theorem Returns.and_meets (h : Returns m s Q) (h' : Meets m s R E) :
    Returns m s fun a t => Q a t ∧ R a t := by
  obtain ⟨a, t, hm, ha⟩ := h
  rw [Meets, hm] at h'
  exact ⟨a, t, hm, ha, h'⟩

theorem meets_pure (h : Q a s) : Meets (pure a) s Q E := h

theorem meets_throw (h : E e) : Meets (throw e : EStateM ε σ α) s Q E := h

theorem meets_get {Q : σ → σ → Prop} (h : Q s s) : Meets get s Q E := h

theorem meets_modify {f : σ → σ} {Q : PUnit → σ → Prop} (h : Q ⟨⟩ (f s)) :
    Meets (modify f) s Q E := h

theorem Meets.bind {Q : β → σ → Prop} (h : Meets m s R E)
    (hf : ∀ a t, R a t → Meets (f a) t Q E) : Meets (m >>= f) s Q E := by
  show match EStateM.bind m f s with | .ok b t => Q b t | .error e _ => E e
  unfold Meets at h
  unfold EStateM.bind
  cases hm : m s with
  | ok a t =>
    rw [hm] at h
    exact hf a t h
  | error e t =>
    rw [hm] at h
    exact h

theorem meets_bind_of_eq {Q : β → σ → Prop}
    (h : m s = .ok a t) (hf : Meets (f a) t Q E) : Meets (m >>= f) s Q E := by
  rw [Meets, bind_of_eq h]
  exact hf

theorem meets_ite [Decidable c] (h : c → Meets m s Q E)
    (h' : ¬c → Meets m' s Q E) : Meets (if c then m else m') s Q E := by
  by_cases hc : c
  · rw [if_pos hc]
    exact h hc
  · rw [if_neg hc]
    exact h' hc

theorem meets_forM_range' {f : Nat → EStateM ε σ PUnit} (k : Nat) (h0 : I k s)
    (hstep : ∀ i s, k ≤ i → i < k + n → I i s → Meets (f i) s (fun _ t => I (i + 1) t) E) :
    Meets ((List.range' k n).forM f) s (fun _ t => I (k + n) t) E := by
  induction n generalizing k s with
  | zero => exact h0
  | succ n ih =>
    refine (hstep k s (Nat.le_refl k) (by omega) h0).bind fun _ t ht => ?_
    have := ih (k + 1) ht fun i s hi hlt => hstep i s (by omega) (by omega)
    rwa [Nat.add_assoc, Nat.add_comm 1 n] at this

/-- The rule for a loop over `0, …, n - 1` with the invariant `I`. -/
theorem meets_forM_range {f : Nat → EStateM ε σ PUnit}
    (h0 : I 0 s) (hstep : ∀ i s, i < n → I i s → Meets (f i) s (fun _ t => I (i + 1) t) E) :
    Meets ((List.range n).forM f) s (fun _ t => I n t) E := by
  rw [List.range_eq_range']
  have := meets_forM_range' (n := n) 0 h0 fun i s _ hi => hstep i s (by omega)
  rwa [Nat.zero_add] at this

theorem returns_forM_range {f : Nat → EStateM ε σ PUnit}
    (h0 : I 0 s) (hstep : ∀ i s, i < n → I i s → Returns (f i) s fun _ t => I (i + 1) t) :
    Returns ((List.range n).forM f) s fun _ t => I n t :=
  (meets_forM_range h0 fun i s hi h => (hstep i s hi h).meets).returns fun _ => id

end Meets

end Linux001.ProofKit
