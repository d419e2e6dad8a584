import Linux001.ProofKit.Sizes

/-! `strtok` of `include/string.h`. Between the calls, `___strtok` points behind the NUL that ends
the last token, to the NUL that ends the string, or is NULL. -/

namespace Linux001.Lib

open Function

/-- Memory, and `___strtok`. -/
structure Tok where
  mem : Nat → UInt8
  strtok : Option Nat

/-- `for (p = ct; *p; p++) if (*p == c)`: whether the loop finds the character. -/
def delimiter : List UInt8 → UInt8 → Bool
  | [], _ => false
  | p :: ct, c => if p = c then true else delimiter ct c

variable (ct : List UInt8)

/-- The loop over leading delimiters from `p` on, for less than `fuel` of them. -/
def skipLoop (m : Nat → UInt8) : Nat → Nat → Option Nat
  | 0, _ => none
  | fuel + 1, p =>
    if m p = 0 then some p
    else if delimiter ct (m p) then skipLoop m fuel (p + 1)
    else some p

/-- The loop to the end of the token, with memory and the new `___strtok`. -/
def tokenLoop (m : Nat → UInt8) : Nat → Nat → Option Tok
  | 0, _ => none
  | fuel + 1, p =>
    if m p = 0 then some ⟨m, none⟩
    else if delimiter ct (m p) then some ⟨update m p 0, some (p + 1)⟩
    else tokenLoop m fuel (p + 1)

def strtok (fuel : Nat) (s : Option Nat) (t : Tok) : Option (Option Nat × Tok) :=
  match s.or t.strtok with
  | none => some (none, t)
  | some p => do
    let p ← skipLoop ct t.mem fuel p
    if t.mem p = 0 then pure (none, ⟨t.mem, some p⟩)
    else
      let t ← tokenLoop ct t.mem fuel p
      pure (some p, t)

def nextTokens (fuel : Nat) : Nat → Tok → Option (List (Option Nat) × Tok)
  | 0, t => some ([], t)
  | n + 1, t => do
    let (r, t) ← strtok ct fuel none t
    let (rs, t) ← nextTokens fuel n t
    pure (r :: rs, t)

/-- The results of `strtok(s,ct)` and of `n` calls with NULL after it. -/
def tokens (fuel s n : Nat) (t : Tok) : Option (List (Option Nat) × Tok) := do
  let (r, t) ← strtok ct fuel (some s) t
  let (rs, t) ← nextTokens ct fuel n t
  pure (r :: rs, t)

def StringAt (m : Nat → UInt8) (a : Nat) : List UInt8 → Prop
  | [] => m a = 0
  | c :: text => m a = c ∧ c ≠ 0 ∧ StringAt m (a + 1) text

/-- The maximal runs of a text at `a`; `b` says that one can begin at once. -/
def runs : Bool → Nat → List UInt8 → List (Nat × List UInt8)
  | _, _, [] => []
  | b, a, c :: text =>
    if c ∈ ct then runs true (a + 1) text
    else if b then (a, (c :: text).takeWhile (· ∉ ct)) :: runs false (a + 1) text
    else runs false (a + 1) text

variable {m m' : Nat → UInt8} {a fuel : Nat} {text : List UInt8} {t : Tok}

theorem delimiter_eq (c : UInt8) : delimiter ct c = decide (c ∈ ct) := by
  induction ct with
  | nil => rfl
  | cons p ct ih =>
    rw [delimiter, ih]
    by_cases h : p = c
    · simp [h]
    · simp [h, Ne.symm h]

theorem StringAt.congr (h : StringAt m a text)
    (hm : ∀ x, a ≤ x → x ≤ a + text.length → m' x = m x) : StringAt m' a text := by
  induction text generalizing a with
  | nil => exact (hm a le_rfl le_rfl).trans h
  | cons c text ih =>
    refine ⟨(hm a le_rfl (by simp)).trans h.1, h.2.1, ih h.2.2 fun x hx hle => hm x (by omega) ?_⟩
    rw [List.length_cons]
    omega

/-- The state of the calls: the runs that are left are those of `text` at `a`. -/
def Left (t : Tok) (a : Nat) (text : List UInt8) : Prop :=
  (t.strtok = some a ∧ StringAt t.mem a text) ∨ t.strtok = none ∧ text = []

theorem skipLoop_eq (h : StringAt m a text) (hfuel : text.length < fuel) :
    ∃ q rest, skipLoop ct m fuel a = some q ∧ StringAt m q rest ∧ a ≤ q ∧
      q + rest.length = a + text.length ∧ runs ct true a text = runs ct true q rest ∧
      ∀ c ∈ rest.head?, c ∉ ct := by
  induction text generalizing a fuel with
  | nil =>
    obtain ⟨fuel, rfl⟩ := Nat.exists_eq_add_of_lt hfuel
    exact ⟨a, [], if_pos h, h, le_rfl, rfl, rfl, nofun⟩
  | cons c text ih =>
    obtain ⟨fuel, rfl⟩ := Nat.exists_eq_succ_of_ne_zero (Nat.ne_zero_of_lt hfuel)
    obtain ⟨hc, hne, hrest⟩ := h
    rw [skipLoop, hc, if_neg hne, delimiter_eq]
    by_cases hd : c ∈ ct
    · obtain ⟨q, rest, hq, hat, hle, hlen, hruns, hhead⟩ := ih hrest (Nat.lt_of_succ_lt_succ hfuel)
      refine ⟨q, rest, ?_, hat, by omega, ?_, ?_, hhead⟩
      · rw [if_pos (decide_eq_true hd)]
        exact hq
      · rw [hlen, List.length_cons, Nat.succ_add_eq_add_succ]
      · rw [runs, if_pos hd, hruns]
    · refine ⟨a, c :: text, ?_, ⟨hc, hne, hrest⟩, le_rfl, rfl, rfl, fun x hx => ?_⟩
      · rw [if_neg (by simpa using hd)]
      · rwa [← Option.some.inj hx]

/-- A token is cut off at the delimiter after it, if there is one. -/
theorem tokenLoop_eq (h : StringAt m a text) (hfuel : text.length < fuel) :
    ∃ token t rest, text.takeWhile (· ∉ ct) = token ∧ tokenLoop ct m fuel a = some t ∧
      Left t (a + token.length + 1) rest ∧
      (rest = [] ∨ token.length + 1 + rest.length = text.length) ∧
      runs ct false a text = runs ct true (a + token.length + 1) rest ∧ StringAt t.mem a token ∧
      ∀ x, t.mem x ≠ m x → x = a + token.length ∧ x < a + text.length := by
  induction text generalizing a fuel with
  | nil =>
    obtain ⟨fuel, rfl⟩ := Nat.exists_eq_add_of_lt hfuel
    exact ⟨_, ⟨m, none⟩, [], rfl, if_pos h, .inr ⟨rfl, rfl⟩, .inl rfl, rfl, h, fun x hx =>
      absurd rfl hx⟩
  | cons c text ih =>
    obtain ⟨fuel, rfl⟩ := Nat.exists_eq_succ_of_ne_zero (Nat.ne_zero_of_lt hfuel)
    obtain ⟨hc, hne, hrest⟩ := h
    rw [tokenLoop, hc, if_neg hne, delimiter_eq, runs]
    by_cases hd : c ∈ ct
    · have hafter : StringAt (update m a 0) (a + 1) text :=
        hrest.congr fun x hx _ => update_of_ne (by omega) _ _
      refine ⟨[], _, text, List.takeWhile_cons_of_neg (by simpa using hd),
        if_pos (decide_eq_true hd),
        .inl ⟨rfl, hafter⟩, .inr (Nat.add_comm ..), if_pos hd, update_self .., fun x hx => ?_⟩
      obtain rfl : x = a := by
        by_contra hne
        exact hx (update_of_ne hne _ _)
      exact ⟨rfl, by simp⟩
    · obtain ⟨token, t, rest, htoken, ht, hleft, hlen, hruns, hat, hmem⟩ :=
        ih hrest (Nat.lt_of_succ_lt_succ hfuel)
      have hnext : a + (c :: token).length + 1 = a + 1 + token.length + 1 := by
        rw [List.length_cons]
        omega
      rw [if_neg (by simpa using hd), if_neg hd, hruns,
        List.takeWhile_cons_of_pos (by simpa using hd), htoken]
      refine ⟨c :: token, t, rest, rfl, ht, hnext ▸ hleft, hlen.imp_right fun h => ?_, hnext ▸ rfl,
        ⟨?_, hne, hat⟩, fun x hx => ?_⟩
      · rw [List.length_cons, List.length_cons, ← h, Nat.add_right_comm]
      · by_contra hx
        have := hmem a (hc ▸ hx)
        omega
      · have := hmem x hx
        rw [List.length_cons, List.length_cons]
        omega

theorem strtok_eq (h : Left t a text) (hfuel : text.length < fuel) :
    (runs ct true a text = [] ∧ ∃ p, strtok ct fuel none t = some (none, ⟨t.mem, p⟩) ∧
      ∃ b, Left ⟨t.mem, p⟩ b []) ∨
    ∃ q token t' rest, strtok ct fuel none t = some (some q, t') ∧
      Left t' (q + token.length + 1) rest ∧ a ≤ q ∧
      (rest = [] ∨ q + token.length + 1 + rest.length = a + text.length) ∧
      runs ct true a text = (q, token) :: runs ct true (q + token.length + 1) rest ∧
      StringAt t'.mem q token ∧
      ∀ x, t'.mem x ≠ t.mem x → x = q + token.length ∧ x < a + text.length := by
  rcases h with ⟨hp, hat⟩ | ⟨hp, rfl⟩
  · obtain ⟨q, rest, hskip, hat, hle, hlen, hruns, hhead⟩ := skipLoop_eq ct hat hfuel
    rw [strtok, hp, Option.none_or]
    simp only [hskip, Option.bind_eq_bind, Option.bind_some, hruns]
    cases rest with
    | nil => exact .inl ⟨rfl, _, if_pos hat, q, .inl ⟨rfl, hat⟩⟩
    | cons c rest =>
      have hc : c ∉ ct := hhead c rfl
      obtain ⟨token, t', rest', htoken, ht, hleft, hlen', hruns', hat', hmem⟩ :=
        tokenLoop_eq ct hat (by omega : (c :: rest).length < fuel)
      refine .inr ⟨q, token, t', rest', ?_, hleft, hle, hlen'.imp_right fun h => by omega, ?_, hat',
        fun x hx => ?_⟩
      · rw [if_neg (by rw [hat.1]; exact hat.2.1), ht]
        rfl
      · rw [runs, if_neg hc, if_pos rfl, htoken, ← hruns', runs, if_neg hc,
          if_neg Bool.false_ne_true]
      · have := hmem x hx
        omega
  · obtain ⟨m, p⟩ := t
    obtain rfl : p = none := hp
    exact .inl ⟨rfl, none, rfl, 0, .inr ⟨rfl, rfl⟩⟩

theorem nextTokens_eq (h : Left t a text) (hfuel : text.length < fuel) (n : Nat) :
    ∃ t', nextTokens ct fuel n t =
        some ((List.range n).map fun k => (runs ct true a text)[k]?.map (·.1), t') ∧
      (∀ r ∈ (runs ct true a text).take n, StringAt t'.mem r.1 r.2) ∧
      ∀ x, t'.mem x ≠ t.mem x → a ≤ x ∧ ∃ r ∈ (runs ct true a text).take n,
        x = r.1 + r.2.length ∧ x < a + text.length := by
  induction n generalizing t a text with
  | zero => exact ⟨t, rfl, by simp, fun x hx => absurd rfl hx⟩
  | succ n ih =>
    rw [nextTokens, List.range_succ_eq_map]
    rcases strtok_eq ct h hfuel with ⟨hnil, p, hcall, b, hleft⟩ |
      ⟨q, token, u, rest, hcall, hleft, hle, hlen, hruns, hat, hmem⟩
    · obtain ⟨t', hcalls, -, hmem⟩ := ih hleft (Nat.zero_lt_of_lt hfuel)
      refine ⟨t', ?_, by simp [hnil], fun x hx => ?_⟩
      · simp [hcall, hcalls, hnil, runs, Function.comp_def]
      · obtain ⟨-, r, hr, -⟩ := hmem x hx
        simp [runs] at hr
    · have hfuel' : rest.length < fuel := by
        rcases hlen with rfl | h
        · exact Nat.zero_lt_of_lt hfuel
        · omega
      obtain ⟨t', hcalls, hats, hmems⟩ := ih hleft hfuel'
      rw [hruns, List.take_succ_cons]
      refine ⟨t', ?_, fun r hr => ?_, fun x hx => ?_⟩
      · simp [hcall, hcalls]
      · rcases List.mem_cons.mp hr with rfl | hr
        · refine hat.congr fun x hge hx => ?_
          by_contra hne
          have := (hmems x hne).1
          omega
        · exact hats r hr
      · by_cases hx' : t'.mem x = u.mem x
        · obtain ⟨hx, hlt⟩ := hmem x (hx' ▸ hx)
          exact ⟨by omega, _, List.mem_cons_self, hx, hlt⟩
        · obtain ⟨hge, r, hr, hx, hlt⟩ := hmems x hx'
          refine ⟨by omega, r, List.mem_cons_of_mem _ hr, hx, ?_⟩
          rcases hlen with rfl | h
          · simp [runs] at hr
          · omega

/-- The calls return the maximal runs and then NULL; only delimiters change. -/
theorem tokens_runs (m : Nat → UInt8) (s : Nat) (text : List UInt8) (hs : StringAt m s text)
    (fuel : Nat) (hfuel : text.length < fuel) (p : Option Nat) (n : Nat) :
    ∃ t, tokens ct fuel s n ⟨m, p⟩ =
        some ((List.range (n + 1)).map fun k => (runs ct true s text)[k]?.map (·.1), t) ∧
      (∀ r ∈ (runs ct true s text).take (n + 1), StringAt t.mem r.1 r.2) ∧
      ∀ x, t.mem x ≠ m x → ∃ r ∈ (runs ct true s text).take (n + 1),
        x = r.1 + r.2.length ∧ x < s + text.length := by
  have hleft : Left ⟨m, some s⟩ s text := .inl ⟨rfl, hs⟩
  obtain ⟨t, hcalls, hat, hmem⟩ := nextTokens_eq ct hleft hfuel (n + 1)
  exact ⟨t, hcalls, hat, fun x hx => (hmem x hx).2⟩

/-- The commas of ",a,,b". -/
theorem tokens_runs_commas : ∃ t, tokens [44] 6 0 3 ⟨fun a => [44, 97, 44, 44, 98].getD a 0, none⟩ =
    some ([some 1, some 4, none, none], t) :=
  (tokens_runs [44] _ 0 [44, 97, 44, 44, 98] (by simp [StringAt]) 6 (by decide) none 3).imp fun _
    h =>
    h.1

end Linux001.Lib
