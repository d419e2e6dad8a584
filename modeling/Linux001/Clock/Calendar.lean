import Linux001.ProofKit.Sizes

/-! The seconds since 1970: `kernel_mktime` of `kernel/mktime.c`, and `time_init` of `init/main.c`.
An `int` has 32 bits here, and a `long` 64. -/

namespace Linux001.Clock

structure Tm where
  tmSec : Int32
  tmMin : Int32
  tmHour : Int32
  tmMday : Int32
  tmMon : Int32
  tmYear : Int32

def minute : Int32 := 60

def hour : Int32 := 60 * minute

def day : Int32 := 24 * hour

def year : Int32 := 365 * day

def month : List Int32 :=
  [0, day * 31, day * (31 + 29), day * (31 + 29 + 31), day * (31 + 29 + 31 + 30),
    day * (31 + 29 + 31 + 30 + 31), day * (31 + 29 + 31 + 30 + 31 + 30),
    day * (31 + 29 + 31 + 30 + 31 + 30 + 31), day * (31 + 29 + 31 + 30 + 31 + 30 + 31 + 31),
    day * (31 + 29 + 31 + 30 + 31 + 30 + 31 + 31 + 30),
    day * (31 + 29 + 31 + 30 + 31 + 30 + 31 + 31 + 30 + 31),
    day * (31 + 29 + 31 + 30 + 31 + 30 + 31 + 31 + 30 + 31 + 30)]

/-- `kernel_mktime`, or `none` where it reads outside of the table. -/
def kernelMktime (tm : Tm) : Option Int64 :=
  let years := tm.tmYear - 70
  if tm.tmMon < 0 then none
  else month[tm.tmMon.toInt.toNat]?.map fun m =>
    let res := (year * years + day * ((years + 1) / 4)).toInt64
    let res := res + m.toInt64
    let res := if tm.tmMon > 1 ∧ (years + 2) % 4 ≠ 0 then res - day.toInt64 else res
    let res := res + (day * (tm.tmMday - 1)).toInt64
    let res := res + (hour * tm.tmHour).toInt64
    let res := res + (minute * tm.tmMin).toInt64
    res + tm.tmSec.toInt64

/-! ### The calendar -/

def leap (y : Nat) : Bool := y % 4 = 0 ∧ (y % 100 ≠ 0 ∨ y % 400 = 0)

def yearLength (y : Nat) : Nat := if leap y then 366 else 365

def monthLength (leap : Bool) (m : Nat) : Nat :=
  if m = 2 then if leap then 29 else 28
  else if m = 4 ∨ m = 6 ∨ m = 9 ∨ m = 11 then 30 else 31

structure Date where
  year : Nat
  month : Nat
  day : Nat
  hour : Nat
  min : Nat
  sec : Nat
  year_ge : 1970 ≤ year
  year_le : year ≤ 2099
  month_ge : 1 ≤ month
  month_le : month ≤ 12
  day_ge : 1 ≤ day
  day_le : day ≤ monthLength (leap year) month
  hour_lt : hour < 24
  min_lt : min < 60
  sec_lt : sec < 60

def daysToYear (y : Nat) : Nat := ((List.range (y - 1970)).map fun i => yearLength (1970 + i)).sum

def daysToMonth (leap : Bool) (m : Nat) : Nat :=
  ((List.range (m - 1)).map fun i => monthLength leap (i + 1)).sum

namespace Date

def seconds (d : Date) : Nat :=
  let days := daysToYear d.year + daysToMonth (leap d.year) d.month + (d.day - 1)
  86400 * days + 3600 * d.hour + 60 * d.min + d.sec

def fields (d : Date) : List Nat := [d.year, d.month, d.day, d.hour, d.min, d.sec]

def tm (d : Date) : Tm where
  tmSec := .ofNat d.sec
  tmMin := .ofNat d.min
  tmHour := .ofNat d.hour
  tmMday := .ofNat d.day
  tmMon := .ofNat (d.month - 1)
  tmYear := .ofNat (d.year - 1900)

end Date

theorem leap_eq {y : Nat} (hge : 1970 ≤ y) (hle : y ≤ 2099) : leap y = decide (y % 4 = 0) := by
  simp only [leap, decide_eq_decide]
  omega

theorem daysToYear_succ {y : Nat} (hge : 1970 ≤ y) :
    daysToYear (y + 1) = daysToYear y + yearLength y := by
  obtain ⟨n, rfl⟩ := Nat.exists_eq_add_of_le hge
  simp [daysToYear, Nat.add_assoc, List.range_succ]

theorem daysToYear_add (n : Nat) (hn : n ≤ 130) :
    daysToYear (1970 + n) = 365 * n + (n + 1) / 4 := by
  induction n with
  | zero => rfl
  | succ n ih =>
    rw [← Nat.add_assoc, daysToYear_succ (by omega), ih (by omega), yearLength,
      leap_eq (by omega) (by omega)]
    simp only [decide_eq_true_eq]
    split <;> omega

/-! ### `kernel_mktime` -/

/-- What `YEAR*year` loses: it wraps from 2039 on. -/
def lost (y : Nat) : Int := if y ≤ 2038 then 0 else 2 ^ 32

theorem years_eq : ∀ n < 130,
    let years := Int32.ofNat (n + 70) - 70
    (year * years + day * ((years + 1) / 4)).toInt64 =
        .ofInt (86400 * (365 * n + (n + 1) / 4) - lost (1970 + n)) ∧
      ((years + 2) % 4 ≠ 0 ↔ (n + 2) % 4 ≠ 0) := by
  decide +kernel

theorem month_entry : ∀ m < 12,
    ¬Int32.ofNat m < 0 ∧ (Int32.ofNat m > 1 ↔ 2 ≤ m) ∧
      month[(Int32.ofNat m).toInt.toNat]?.map (·.toInt64) =
        some (.ofInt (86400 * daysToMonth true (m + 1))) := by
  decide +kernel

theorem daysToMonth_leap : ∀ m < 12,
    daysToMonth true (m + 1) = daysToMonth false (m + 1) + if 2 ≤ m then 1 else 0 := by
  decide

theorem day_eq : ∀ n < 31, (day * (Int32.ofNat (n + 1) - 1)).toInt64 = .ofInt (86400 * n) := by
  decide +kernel

theorem time_eq : ∀ n < 60, (hour * Int32.ofNat n).toInt64 = .ofInt (3600 * n) ∧
    (minute * Int32.ofNat n).toInt64 = .ofInt (60 * n) ∧ (Int32.ofNat n).toInt64 = .ofInt n := by
  decide +kernel

theorem monthLength_le (leap : Bool) (m : Nat) : monthLength leap m ≤ 31 := by
  unfold monthLength
  grind

theorem kernelMktime_eq (d : Date) :
    kernelMktime d.tm = some (.ofInt (d.seconds - lost d.year)) := by
  obtain ⟨y, m, k, hour, min, sec, hge, hle, hm, hm', hk, hk', hhour, hmin, hsec⟩ := d
  obtain ⟨n, rfl⟩ := Nat.exists_eq_add_of_le hge
  obtain ⟨m, rfl⟩ := Nat.exists_eq_add_of_le' hm
  obtain ⟨k, rfl⟩ := Nat.exists_eq_add_of_le' hk
  have hlen := monthLength_le (leap (1970 + n)) (m + 1)
  obtain ⟨hyears, hleap⟩ := years_eq n (by omega)
  obtain ⟨hneg, hlate, hentry⟩ := month_entry m (by omega)
  obtain ⟨e, he, hvalue⟩ := Option.map_eq_some_iff.mp hentry
  have hfeb := daysToMonth_leap m (by omega)
  have hlast : (86400 * daysToMonth true (m + 1) -
      if 2 ≤ m ∧ (n + 2) % 4 ≠ 0 then 86400 else 0 : Int) =
        86400 * daysToMonth (decide ((1970 + n) % 4 = 0)) (m + 1) := by
    by_cases hfour : (1970 + n) % 4 = 0
    · rw [if_neg (by omega), decide_eq_true hfour, Int.sub_zero]
    · rw [decide_eq_false hfour]
      split at hfeb <;> split <;> omega
  unfold kernelMktime Date.tm Date.seconds
  rw [show 1970 + n - 1900 = n + 70 by omega, Nat.add_sub_cancel, if_neg hneg, he, Option.map_some,
    hyears, hvalue, day_eq k (by omega), (time_eq hour (by omega)).1, (time_eq min hmin).2.1,
    (time_eq sec hsec).2.2, show day.toInt64 = .ofInt 86400 by decide, daysToYear_add n (by omega),
    leap_eq hge hle, Nat.add_sub_cancel]
  simp only [hlate, hleap, ← Int64.ofInt_add, ← Int64.ofInt_sub, ← apply_ite Int64.ofInt]
  refine congrArg (fun z => some (Int64.ofInt z)) ?_
  split at hlast <;> split <;> omega

/-! ### The order of the dates -/

theorem daysToMonth_le : ∀ leap, ∀ m < 12,
    daysToMonth leap (m + 1) + monthLength leap (m + 1) ≤ if leap then 366 else 365 := by
  decide

theorem daysToMonth_lt : ∀ leap, ∀ m < 12, ∀ m' < 12, m < m' →
    daysToMonth leap (m + 1) + monthLength leap (m + 1) ≤ daysToMonth leap (m' + 1) := by
  decide +kernel

theorem daysToYear_lt {y y' : Nat} (hge : 1970 ≤ y) (hlt : y < y') (hle : y' ≤ 2099) :
    daysToYear y + yearLength y ≤ daysToYear y' := by
  obtain ⟨n, rfl⟩ := Nat.exists_eq_add_of_le hge
  obtain ⟨n', rfl⟩ := Nat.exists_eq_add_of_le (Nat.le_trans hge (Nat.le_of_lt hlt))
  rw [daysToYear_add n (by omega), daysToYear_add n' (by omega), yearLength,
    leap_eq (by omega) (by omega)]
  simp only [decide_eq_true_eq]
  split <;> omega

theorem Date.dayOfYear_lt (d : Date) :
    daysToMonth (leap d.year) d.month + (d.day - 1) < yearLength d.year := by
  have hmonth := daysToMonth_le (leap d.year) (d.month - 1) (by have := d.month_le; omega)
  rw [Nat.sub_add_cancel d.month_ge] at hmonth
  have := d.day_ge
  have := d.day_le
  exact Nat.lt_of_lt_of_le (by omega) hmonth

theorem Date.seconds_lt {d d' : Date} (h : d.fields < d'.fields) : d.seconds < d'.seconds := by
  have hyear := d.dayOfYear_lt
  have := d.day_ge
  have := d.day_le
  have := d.hour_lt
  have := d.min_lt
  have := d.sec_lt
  have hle := d'.month_le
  simp only [fields, List.cons_lt_cons_iff, List.not_lt_nil, and_false, or_false] at h
  unfold seconds
  dsimp only
  rcases h with hlt | ⟨heq, hlt | ⟨heq', h⟩⟩
  · have := daysToYear_lt d.year_ge hlt d'.year_le
    omega
  · have := daysToMonth_lt (leap d.year) (d.month - 1) (by omega) (d'.month - 1) (by omega)
      (by have := d.month_ge; omega)
    rw [Nat.sub_add_cancel d.month_ge, Nat.sub_add_cancel d'.month_ge] at this
    rw [← heq]
    omega
  · rw [← heq, ← heq']
    omega

theorem Date.seconds_lt_two_pow (d : Date) : d.seconds < 2 ^ 33 := by
  have hyear := d.dayOfYear_lt
  have hlen : yearLength d.year ≤ 366 := by
    unfold yearLength
    split <;> omega
  have hle := d.year_le
  obtain ⟨n, hn⟩ := Nat.exists_eq_add_of_le d.year_ge
  have hdays := daysToYear_add n (by omega)
  rw [← hn] at hdays
  have := d.hour_lt
  have := d.min_lt
  have := d.sec_lt
  unfold seconds
  dsimp only
  omega

theorem toInt_kernelMktime (d : Date) : ∃ r, kernelMktime d.tm = some r ∧
    r.toInt = d.seconds - lost d.year := by
  have hlt := d.seconds_lt_two_pow
  have hlost : 0 ≤ lost d.year ∧ lost d.year ≤ 2 ^ 32 := by
    unfold lost
    split <;> omega
  exact ⟨_, kernelMktime_eq d, Int64.toInt_ofInt_of_le (by omega) (by omega)⟩

theorem kernelMktime_exact (d : Date) :
    (kernelMktime d.tm).map (·.toInt) = some (d.seconds : Int) ↔ d.year ≤ 2038 := by
  obtain ⟨r, hr, hvalue⟩ := toInt_kernelMktime d
  rw [hr, Option.map_some, Option.some.injEq, hvalue, lost]
  split <;> omega

/-- The result is exact and increasing if and only if the date is not after 2038. -/
theorem kernelMktime_exact_iff (d : Date) :
    (∃ r, kernelMktime d.tm = some r ∧ r.toInt = d.seconds ∧
      ∀ d' : Date, d'.fields < d.fields → ∃ r', kernelMktime d'.tm = some r' ∧ r' < r) ↔
    d.year ≤ 2038 := by
  obtain ⟨r, hr, hvalue⟩ := toInt_kernelMktime d
  constructor
  · rintro ⟨r', hr', hexact, -⟩
    rw [← kernelMktime_exact, hr', Option.map_some, hexact]
  intro hle
  rw [lost, if_pos hle, Int.sub_zero] at hvalue
  refine ⟨r, hr, hvalue, fun d' hlt => ?_⟩
  obtain ⟨r', hr', hvalue'⟩ := toInt_kernelMktime d'
  have hle' : d'.year ≤ 2038 := by
    simp only [Date.fields, List.cons_lt_cons_iff] at hlt
    omega
  have hseconds := Date.seconds_lt hlt
  rw [lost, if_pos hle'] at hvalue'
  exact ⟨r', hr', Int64.lt_iff_toInt_lt.mpr (by omega)⟩

def midnight (year month day : Nat) (hge : 1970 ≤ year) (hle : year ≤ 2099)
    (hmonth : 1 ≤ month ∧ month ≤ 12) (hday : 1 ≤ day ∧ day ≤ monthLength (leap year) month) :
    Date :=
  ⟨year, month, day, 0, 0, 0, hge, hle, hmonth.1, hmonth.2, hday.1, hday.2, by decide, by decide,
    by decide⟩

/-- The result for the beginning of 2039 is negative. -/
theorem kernelMktime_wraps :
    let d := midnight 2039 1 1 (by decide) (by decide) (by decide) (by decide)
    kernelMktime d.tm = some (-2117514496) ∧ d.seconds = 2177452800 := by
  decide +kernel

/-! ### `time_init` -/

/-- The clock: what each of the reads would find in each of the registers. -/
abbrev Rtc := Nat → Nat → UInt8

def cmosRead (rtc : Rtc) (n addr : Nat) : Int32 := (rtc n addr).toUInt32.toInt32

def bcdToBin (val : Int32) : Int32 := (val &&& (15 : Int32)) + (val >>> (4 : Int32)) * 10

def readClock (rtc : Rtc) : Nat → Nat → Option Tm
  | 0, _ => none
  | fuel + 1, n =>
    let time : Tm := ⟨cmosRead rtc n 0, cmosRead rtc (n + 1) 2, cmosRead rtc (n + 2) 4,
      cmosRead rtc (n + 3) 7, cmosRead rtc (n + 4) 8 - 1, cmosRead rtc (n + 5) 9⟩
    if time.tmSec ≠ cmosRead rtc (n + 6) 0 then readClock rtc fuel (n + 7) else some time

def timeInit (rtc : Rtc) (fuel : Nat) : Option Tm :=
  (readClock rtc fuel 0).map fun time =>
    ⟨bcdToBin time.tmSec, bcdToBin time.tmMin, bcdToBin time.tmHour, bcdToBin time.tmMday,
      bcdToBin time.tmMon, bcdToBin time.tmYear⟩

def bcd (n : Nat) : UInt8 := .ofNat (16 * (n / 10) + n % 10)

structure Shows (rtc : Rtc) (d : Date) : Prop where
  sec : ∀ n, rtc n 0 = bcd d.sec
  min : ∀ n, rtc n 2 = bcd d.min
  hour : ∀ n, rtc n 4 = bcd d.hour
  day : ∀ n, rtc n 7 = bcd d.day
  month : ∀ n, rtc n 8 = bcd d.month
  year : ∀ n, rtc n 9 = bcd (d.year - 1900)

theorem bcdToBin_bcd : ∀ n < 100, bcdToBin (bcd n).toUInt32.toInt32 = .ofNat n := by
  decide +kernel

theorem bcdToBin_month : ∀ m < 12, bcdToBin ((bcd (m + 1)).toUInt32.toInt32 - 1) =
    .ofNat (if m = 9 then 15 else m) := by
  decide +kernel

theorem timeInit_eq {rtc : Rtc} {d : Date} {fuel : Nat} (h : Shows rtc d) (hfuel : fuel ≠ 0)
    (hyear : d.year ≤ 1999) : timeInit rtc fuel =
      some { d.tm with tmMon := .ofNat (if d.month = 10 then 15 else d.month - 1) } := by
  obtain ⟨fuel, rfl⟩ := Nat.exists_eq_succ_of_ne_zero hfuel
  obtain ⟨m, hm⟩ := Nat.exists_eq_add_of_le' d.month_ge
  have := d.month_le
  have hday := Nat.le_trans d.day_le (monthLength_le _ _)
  have hlast : (if d.month = 10 then 15 else d.month - 1) = if m = 9 then 15 else m := by
    split <;> split <;> omega
  rw [hlast]
  simp only [timeInit, readClock, cmosRead, h.sec, h.min, h.hour, h.day, h.month, h.year, ne_eq,
    not_true_eq_false, if_false, Option.map_some, Date.tm, hm,
    bcdToBin_month m (by omega), bcdToBin_bcd _ (Nat.lt_trans d.sec_lt (by decide)),
    bcdToBin_bcd _ (Nat.lt_trans d.min_lt (by decide)),
    bcdToBin_bcd _ (Nat.lt_trans d.hour_lt (by decide)),
    bcdToBin_bcd _ (Nat.lt_of_le_of_lt hday (by decide)),
    bcdToBin_bcd (d.year - 1900) (by omega)]

/-- `time_init` is right for a date before 2000 if and only if the month is not October. -/
theorem timeInit_right_iff (rtc : Rtc) (d : Date) (fuel : Nat) (hyear : d.year ≤ 1999)
    (h : Shows rtc d) (hfuel : fuel ≠ 0) :
    (∃ time, timeInit rtc fuel = some time ∧ 0 ≤ time.tmMon ∧ time.tmMon ≤ 11 ∧
      (kernelMktime time).map (·.toInt) = some (d.seconds : Int)) ↔ d.month ≠ 10 := by
  rw [timeInit_eq h hfuel hyear]
  constructor
  · rintro ⟨_, ⟨⟩, -, hle, -⟩ hoct
    rw [if_pos hoct] at hle
    exact absurd hle (by decide : ¬Int32.ofNat 15 ≤ 11)
  · intro hoct
    rw [if_neg hoct]
    have hmonth : ∀ m < 12, (0 : Int32) ≤ .ofNat m ∧ Int32.ofNat m ≤ 11 := by decide
    obtain ⟨hge, hle⟩ := hmonth (d.month - 1) (by have := d.month_ge; have := d.month_le; omega)
    exact ⟨d.tm, rfl, hge, hle, (kernelMktime_exact d).mpr (by omega)⟩

def clockAt (d : Date) : Rtc
  | _, 0 => bcd d.sec
  | _, 2 => bcd d.min
  | _, 4 => bcd d.hour
  | _, 7 => bcd d.day
  | _, 8 => bcd d.month
  | _, _ => bcd (d.year - 1900)

theorem shows_clockAt (d : Date) : Shows (clockAt d) d :=
  ⟨fun _ => rfl, fun _ => rfl, fun _ => rfl, fun _ => rfl, fun _ => rfl, fun _ => rfl⟩

/-- The 17th of September 1991. -/
theorem timeInit_right_september :
    let d := midnight 1991 9 17 (by decide) (by decide) (by decide) (by decide)
    ∃ time, timeInit (clockAt d) 1 = some time ∧ 0 ≤ time.tmMon ∧ time.tmMon ≤ 11 ∧
      (kernelMktime time).map (·.toInt) = some (d.seconds : Int) :=
  (timeInit_right_iff _ _ 1 (by decide) (shows_clockAt _) (by decide)).mpr (by decide)

/-- In October `kernel_mktime` gets the month 15. -/
theorem timeInit_october :
    let d := midnight 1991 10 5 (by decide) (by decide) (by decide) (by decide)
    Shows (clockAt d) d ∧ (timeInit (clockAt d) 1).map (·.tmMon) = some 15 ∧
      (timeInit (clockAt d) 1).bind kernelMktime = none :=
  ⟨shows_clockAt _, by decide +kernel, by decide +kernel⟩

end Linux001.Clock
