import SmartDoor.Clock.Time

/-!
# Dates

A date is a year since 1970, a month that there is, and a day that the month has. Dates and the
numbers of days correspond one to one, and so do the seconds of 32 bits and the field records
that name a date and a time of day before their end: on these, `breakTime` and `makeTime` undo
each other.
-/

namespace SmartDoor.Clock

open Segments

/-- The length of a month, counted from 0. -/
def monthLength (y m : Nat) : Nat :=
  if h : m < 12 then
    if m = 1 then (if leapYear y then 29 else 28) else monthDays[m].toNat
  else 0

/-- A date; months and days are counted from 0. -/
structure Date where
  year : Nat
  month : Nat
  day : Nat
  month_lt : month < 12
  day_lt : day < monthLength year month

theorem yearLength_bounds (y : Nat) : 365 ≤ yearLength y ∧ yearLength y ≤ 366 := by
  rw [yearLength]
  split <;> decide

/-- The months make up the year. -/
theorem start_monthLength (y : Nat) : start (monthLength y) 12 = yearLength y := by
  rw [yearLength]
  cases h : leapYear y <;> simp [start, Finset.sum_range_succ, monthLength, monthDays, h]

theorem start_yearLength_lt {y : Nat} (h : y ≤ 137) : start yearLength y < 65536 := by
  have := start_le (fun y => (yearLength_bounds y).2) y
  omega

namespace Date

/-- The number of days since the first of January 1970. -/
def number (d : Date) : Nat :=
  start yearLength d.year + (start (monthLength d.year) d.month + d.day)

/-- The day in its year. -/
theorem within_month (d : Date) :
    Within (monthLength d.year) d.month (start (monthLength d.year) d.month + d.day) :=
  within_iff.mpr ⟨d.day, rfl, d.day_lt⟩

theorem within_year (d : Date) : Within yearLength d.year d.number := by
  refine within_iff.mpr ⟨_, rfl, ?_⟩
  rw [← start_monthLength]
  exact d.within_month.2.trans_le (start_mono _ d.month_lt)

theorem number_injective : Function.Injective number := by
  intro d e h
  have hyear : d.year = e.year := d.within_year.unique (h ▸ e.within_year)
  obtain ⟨year, month, day, hmonth, hday⟩ := d
  obtain ⟨year', month', day', hmonth', hday'⟩ := e
  obtain rfl : year = year' := hyear
  have hrest : start (monthLength year) month + day = start (monthLength year) month' + day' :=
    Nat.add_left_cancel h
  obtain rfl : month = month' :=
    (within_iff.mpr ⟨day, rfl, hday⟩).unique (within_iff.mpr ⟨day', hrest, hday'⟩)
  obtain rfl : day = day' := Nat.add_left_cancel hrest
  rfl

/-- Every day has its date. -/
theorem exists_number (n : Nat) : ∃ d : Date, d.number = n := by
  have hbefore : n < start yearLength (n + 1) := by
    have := le_start (fun y => (yearLength_bounds y).1) (n + 1)
    omega
  obtain ⟨year, -, hyear⟩ := exists_within hbefore
  obtain ⟨rest, rfl, hrest⟩ := within_iff.mp hyear
  rw [← start_monthLength] at hrest
  obtain ⟨month, hmonth, hwithin⟩ := exists_within hrest
  obtain ⟨day, rfl, hday⟩ := within_iff.mp hwithin
  exact ⟨⟨year, month, day, hmonth, hday⟩, rfl⟩

theorem year_lt {d : Date} (h : d.number ≤ 49710) : d.year < 137 := by
  have hle := le_start (fun y => (yearLength_bounds y).1) d.year
  have := d.within_year.1
  omega

end Date

/-! ## The loops -/

/-- The `while` of `breakTime` stops at the year of the day. -/
theorem yearLoop_eq {time : UInt32} {year : Nat} (hyear : year < 137)
    (h : Within yearLength year time.toNat) {left y : Nat} (hle : y ≤ year)
    (hleft : year < y + left) :
    yearLoop time left (UInt32.ofNat (start yearLength y)) (UInt8.ofNat y) =
      some (UInt32.ofNat (start yearLength (year + 1)), UInt8.ofNat year) := by
  induction left generalizing y with
  | zero => omega
  | succ left ih =>
    have hy : (UInt8.ofNat y).toNat = y := by
      rw [UInt8.toNat_ofNat']
      omega
    have hdays : UInt32.ofNat (start yearLength y) + UInt32.ofNat (yearLength y) =
        UInt32.ofNat (start yearLength (y + 1)) := by
      rw [start_succ, UInt32.ofNat_add]
    have hlt := start_yearLength_lt (show y + 1 ≤ 137 by omega)
    have htest : (UInt32.ofNat (start yearLength (y + 1))).toUInt16.toUInt32 ≤ time ↔
        start yearLength (y + 1) ≤ time.toNat := by
      rw [UInt32.le_iff_toNat_le, UInt16.toNat_toUInt32, UInt32.toNat_toUInt16,
        UInt32.toNat_ofNat']
      omega
    rw [yearLoop, hy]
    simp only [hdays, htest]
    by_cases hstop : start yearLength (y + 1) ≤ time.toNat
    · have hne : y ≠ year := by
        rintro rfl
        exact absurd h.2 (by omega)
      rw [if_pos hstop, show UInt8.ofNat y + 1 = UInt8.ofNat (y + 1) by
        rw [UInt8.ofNat_add]; rfl]
      exact ih (by omega) (by omega)
    · rw [if_neg hstop]
      obtain rfl : y = year := by
        by_contra hne
        exact hstop ((start_mono _ (by omega)).trans h.1)
      rfl

/-- The length of a month in the loop of `breakTime`. -/
theorem toNat_monthLength (year : UInt8) {m : Nat} (h : m < 12) :
    (if m = 1 then (if leapYear year.toNat then 29 else 28) else monthDays[m] : UInt8).toNat =
      monthLength year.toNat m := by
  rw [monthLength, dif_pos h]
  split
  · split <;> rfl
  · rfl

/-- The `for` of `breakTime` stops at the month of the day. -/
theorem monthLoop_eq {year : UInt8} {month day m : Nat} (hmonth : month < 12)
    (hday : day < monthLength year.toNat month) (hle : m ≤ month) {time : UInt32}
    (htime : time.toNat + start (monthLength year.toNat) m =
      start (monthLength year.toNat) month + day) :
    monthLoop year m time = (month, UInt32.ofNat day) := by
  have hm : m < 12 := by omega
  have hlen := toNat_monthLength year hm
  rw [monthLoop, dif_pos hm]
  simp only
  generalize (if m = 1 then (if leapYear year.toNat then 29 else 28) else monthDays[m] : UInt8) =
    length at hlen ⊢
  have htest : length.toUInt32 ≤ time ↔ monthLength year.toNat m ≤ time.toNat := by
    rw [UInt32.le_iff_toNat_le, UInt8.toNat_toUInt32, hlen]
  by_cases hne : m = month
  · subst hne
    have hoffset : time.toNat = day := by omega
    rw [if_neg (by rw [htest, hoffset]; omega), ← hoffset, UInt32.ofNat_toNat]
  · have hstart : start (monthLength year.toNat) (m + 1) ≤ start (monthLength year.toNat) month :=
      start_mono _ (by omega)
    rw [start_succ] at hstart
    rw [if_pos (htest.mpr (by omega))]
    refine monthLoop_eq hmonth hday (by omega) ?_
    rw [UInt32.toNat_sub_of_le _ _ (htest.mpr (by omega)), UInt8.toNat_toUInt32, hlen, start_succ]
    omega
termination_by month - m

/-- The first loop of `makeTime` counts the days before the year. -/
theorem leapDays_eq (left i : Nat) :
    leapDays left i (UInt32.ofNat (86400 * (start yearLength i + 365 * left))) =
      UInt32.ofNat (86400 * start yearLength (i + left)) := by
  induction left generalizing i with
  | zero => rfl
  | succ left ih =>
    rw [leapDays, show i + (left + 1) = i + 1 + left by omega, ← ih (i + 1), start_succ, yearLength]
    congr 1
    split
    · rw [show secsPerDay = UInt32.ofNat 86400 from rfl, ← UInt32.ofNat_add]
      congr 1
      omega
    · congr 1
      omega

/-- The second loop of `makeTime` counts the days before the month. -/
theorem monthsBefore_eq {year : UInt8} {seconds left m : Nat} (hm : m + left ≤ 12) :
    monthsBefore year left (m + 1)
        (UInt32.ofNat (seconds + 86400 * start (monthLength year.toNat) m)) =
      some (UInt32.ofNat (seconds + 86400 * start (monthLength year.toNat) (m + left))) := by
  induction left generalizing m with
  | zero => rfl
  | succ left ih =>
    have hlt : m < 12 := by omega
    have hstep : ∀ length : UInt32, length.toNat = monthLength year.toNat m →
        UInt32.ofNat (seconds + 86400 * start (monthLength year.toNat) m) + secsPerDay * length =
          UInt32.ofNat (seconds + 86400 * start (monthLength year.toNat) (m + 1)) := by
      intro length hlength
      rw [start_succ, ← hlength, Nat.mul_add, ← Nat.add_assoc, UInt32.ofNat_add (_ + _),
        UInt32.ofNat_mul, UInt32.ofNat_toNat]
      rfl
    rw [monthsBefore, show m + (left + 1) = m + 1 + left by omega, ← ih (by omega)]
    by_cases hfebruary : m + 1 = 2 ∧ leapYear year.toNat
    · rw [if_pos hfebruary, hstep 29]
      obtain ⟨hm, hleap⟩ := hfebruary
      obtain rfl : m = 1 := by omega
      simp [monthLength, hleap]
    · rw [if_neg hfebruary, dif_pos (show m + 1 - 1 < 12 by omega), hstep]
      rw [UInt8.toNat_toUInt32, ← toNat_monthLength year hlt]
      by_cases hone : m = 1
      · subst hone
        have hleap : leapYear year.toNat = false := by simpa using hfebruary
        simp [monthDays, hleap]
      · simp only [if_neg hone, Nat.add_sub_cancel]

/-- A month behind the thirteenth makes the second loop read past the array. -/
theorem monthsBefore_eq_none {year : UInt8} {left i : Nat} {seconds : UInt32} (hi : 1 ≤ i)
    (hle : i ≤ 13) : monthsBefore year left i seconds = none ↔ 14 ≤ i + left := by
  induction left generalizing i seconds with
  | zero => exact iff_of_false (fun h => by cases h) (by omega)
  | succ left ih =>
    rw [monthsBefore]
    split
    · rw [ih (by omega) (by omega)]
      omega
    · split
      · rw [ih (by omega) (by omega)]
        omega
      · exact iff_of_true rfl (by omega)

theorem makeTime_eq_none {tm : TmElements} : makeTime tm = none ↔ 14 ≤ tm.Month.toNat := by
  rw [makeTime]
  simp only [Option.bind_eq_bind, Option.bind_eq_none_iff, Option.pure_def, reduceCtorEq,
    imp_false]
  rw [← Option.eq_none_iff_forall_ne_some, monthsBefore_eq_none le_rfl (by decide)]
  omega

/-! ## Both ways -/

/-- The fields name a date and a time of day. -/
structure TmElements.Names (tm : TmElements) (d : Date) : Prop where
  second : tm.Second.toNat < 60
  minute : tm.Minute.toNat < 60
  hour : tm.Hour.toNat < 24
  day : tm.Day.toNat = d.day + 1
  month : tm.Month.toNat = d.month + 1
  year : tm.Year.toNat = d.year

/-- The seconds since 1970 of a date and a time of day. -/
def TmElements.seconds (tm : TmElements) (d : Date) : Nat :=
  86400 * d.number + 3600 * tm.Hour.toNat + 60 * tm.Minute.toNat + tm.Second.toNat

theorem toUInt32_eq (x : UInt8) : x.toUInt32 = UInt32.ofNat x.toNat := by
  rw [← UInt8.toNat_toUInt32, UInt32.ofNat_toNat]

/-- `makeTime` counts the seconds, in 32 bits. -/
theorem makeTime_eq {tm : TmElements} {d : Date} (h : tm.Names d) :
    makeTime tm = some (UInt32.ofNat (tm.seconds d)) := by
  have hyear : tm.Year.toUInt32 * (secsPerDay * 365) =
      UInt32.ofNat (86400 * (start yearLength 0 + 365 * d.year)) := by
    rw [toUInt32_eq, h.year, start_zero, Nat.zero_add,
      show 86400 * (365 * d.year) = d.year * (86400 * 365) by omega, UInt32.ofNat_mul]
    rfl
  have hday : tm.Day.toUInt32 - 1 = UInt32.ofNat d.day := by
    rw [toUInt32_eq, h.day, UInt32.ofNat_add]
    exact add_sub_cancel_right _ _
  have hmonths : monthsBefore tm.Year d.month (0 + 1)
      (UInt32.ofNat (86400 * start yearLength (0 + d.year) +
        86400 * start (monthLength tm.Year.toNat) 0)) = _ :=
    monthsBefore_eq (by have := d.month_lt; omega)
  simp only [start_zero, Nat.mul_zero, Nat.add_zero, Nat.zero_add, h.year] at hmonths
  have hmonth : tm.Month.toNat - 1 = d.month := by
    rw [h.month, Nat.add_sub_cancel]
  have hsum : tm.seconds d = 86400 * start yearLength d.year +
      86400 * start (monthLength d.year) d.month + d.day * 86400 + tm.Hour.toNat * 3600 +
        tm.Minute.toNat * 60 + tm.Second.toNat := by
    rw [TmElements.seconds, Date.number]
    omega
  rw [makeTime, hyear, h.year, leapDays_eq, hmonth, Nat.zero_add, hmonths, hday, hsum]
  simp only [toUInt32_eq, UInt32.ofNat_add, UInt32.ofNat_mul]
  rfl

theorem monthDays_le : ∀ m : Fin 12, monthDays[m].toNat ≤ 31 := by
  decide

theorem Date.day_lt_thirtyOne (d : Date) : d.day < 31 := by
  have hlen : monthLength d.year d.month ≤ 31 := by
    rw [monthLength]
    split
    · rename_i hm
      split
      · split <;> decide
      · exact monthDays_le ⟨d.month, hm⟩
    · exact Nat.zero_le _
  exact d.day_lt.trans_le hlen

/-- `breakTime` ends, and its fields name the date and the time of day. -/
theorem breakTime_eq (t : UInt32) : ∃ tm d, breakTime t = some tm ∧ tm.Names d ∧
    tm.seconds d = t.toNat ∧ tm.Wday.toNat = (d.number + 4) % 7 + 1 := by
  obtain ⟨d, hd⟩ := Date.exists_number (t.toNat / 86400)
  have ht := t.toNat_lt
  have hyear := d.year_lt (by omega)
  have hmonth := d.month_lt
  have hday := d.day_lt_thirtyOne
  have htime : (t / 60 / 60 / 24).toNat = d.number := by
    simp only [UInt32.toNat_div, UInt32.reduceToNat]
    omega
  have hy : (UInt8.ofNat d.year).toNat = d.year := by
    rw [UInt8.toNat_ofNat']
    omega
  have hwithin := d.within_year
  rw [← htime] at hwithin
  have hloop := yearLoop_eq hyear hwithin (Nat.zero_le _) (show d.year < 0 + 256 by omega)
  rw [start_zero] at hloop
  have hdays : UInt32.ofNat (start yearLength (d.year + 1)) - UInt32.ofNat (yearLength d.year) =
      UInt32.ofNat (start yearLength d.year) := by
    rw [start_succ, UInt32.ofNat_add]
    exact add_sub_cancel_right _ _
  have hrest : (t / 60 / 60 / 24 - UInt32.ofNat (start yearLength d.year)).toNat =
      start (monthLength d.year) d.month + d.day := by
    have hlt := start_yearLength_lt (show d.year ≤ 137 by omega)
    have hstart : (UInt32.ofNat (start yearLength d.year)).toNat = start yearLength d.year := by
      rw [UInt32.toNat_ofNat']
      omega
    rw [UInt32.toNat_sub_of_le _ _ (by rw [UInt32.le_iff_toNat_le, htime, hstart]; exact d.within_year.1),
      htime, hstart, Date.number]
    omega
  have hday' : d.day < monthLength (UInt8.ofNat d.year).toNat d.month := by
    rw [hy]
    exact d.day_lt
  have hmonths := monthLoop_eq hmonth hday' (Nat.zero_le _)
    (by rw [hrest, hy, start_zero, Nat.add_zero])
  refine ⟨⟨(t % 60).toUInt8, (t / 60 % 60).toUInt8, (t / 60 / 60 % 24).toUInt8,
    ((t / 60 / 60 / 24 + 4) % 7 + 1).toUInt8, (UInt32.ofNat d.day + 1).toUInt8,
    UInt8.ofNat (d.month + 1), UInt8.ofNat d.year⟩, d, ?_, ?_, ?_, ?_⟩
  · rw [breakTime]
    simp only
    rw [show (0 : UInt32) = UInt32.ofNat 0 from rfl, show (0 : UInt8) = UInt8.ofNat 0 from rfl,
      hloop]
    simp only [Option.bind_eq_bind, Option.bind_some]
    rw [hy, hdays, hmonths]
    rfl
  · constructor
    all_goals simp only [UInt32.toNat_toUInt8, UInt32.toNat_mod, UInt32.toNat_div,
      UInt32.toNat_add, UInt32.toNat_ofNat', UInt8.toNat_ofNat', UInt32.reduceToNat]
    all_goals omega
  · simp only [TmElements.seconds, UInt32.toNat_toUInt8, UInt32.toNat_mod, UInt32.toNat_div,
      UInt32.reduceToNat, hd]
    omega
  · rw [UInt32.toNat_toUInt8, UInt32.toNat_add, UInt32.toNat_mod, UInt32.toNat_add, htime]
    simp only [UInt32.reduceToNat]
    omega

/-! ## The correspondence -/

/-- Every time of 32 bits survives `breakTime` and `makeTime`. -/
theorem makeTime_breakTime (t : UInt32) : breakTime t >>= makeTime = some t := by
  obtain ⟨tm, d, hbreak, hnames, hseconds, -⟩ := breakTime_eq t
  rw [hbreak]
  change makeTime tm = some t
  rw [makeTime_eq hnames, hseconds, UInt32.ofNat_toNat]

/-- The date and the time of day are read off the seconds. -/
theorem TmElements.Names.of_seconds {tm tm' : TmElements} {d d' : Date} (h : tm.Names d)
    (h' : tm'.Names d') (heq : tm.seconds d = tm'.seconds d') :
    d = d' ∧ tm' = { tm with Wday := tm'.Wday } := by
  have hs := h.second
  have hm := h.minute
  have hh := h.hour
  have hs' := h'.second
  have hm' := h'.minute
  have hh' := h'.hour
  simp only [TmElements.seconds] at heq
  obtain rfl : d = d' := Date.number_injective (by omega)
  refine ⟨rfl, ?_⟩
  obtain ⟨second, minute, hour, wday, day, month, year⟩ := tm
  obtain ⟨second', minute', hour', wday', day', month', year'⟩ := tm'
  simp only at heq hs hm hh hs' hm' hh'
  simp only [TmElements.mk.injEq, true_and]
  refine ⟨?_, ?_, ?_, ?_, ?_, ?_⟩ <;> apply UInt8.toNat_inj.mp
  · omega
  · omega
  · omega
  · exact h'.day.trans h.day.symm
  · exact h'.month.trans h.month.symm
  · exact h'.year.trans h.year.symm

/-- The fields of a date before the end of the 32-bit seconds survive `makeTime` and `breakTime`,
which finds the day of the week. -/
theorem breakTime_makeTime {tm : TmElements} {d : Date} (h : tm.Names d)
    (hlt : tm.seconds d < 2 ^ 32) : makeTime tm >>= breakTime =
      some { tm with Wday := UInt8.ofNat ((d.number + 4) % 7 + 1) } := by
  obtain ⟨tm', d', hbreak, hnames, hseconds, hwday⟩ := breakTime_eq (UInt32.ofNat (tm.seconds d))
  rw [UInt32.toNat_ofNat_of_lt' hlt] at hseconds
  obtain ⟨rfl, hsame⟩ := h.of_seconds hnames hseconds.symm
  rw [makeTime_eq h]
  change breakTime (UInt32.ofNat (tm.seconds d)) = _
  rw [hbreak, hsame, ← hwday, UInt8.ofNat_toNat]

/-- The last second before the first of March 2000. -/
theorem breakTime_makeTime_of_leap_day :
    makeTime ⟨59, 59, 23, 0, 29, 2, 30⟩ >>= breakTime = some ⟨59, 59, 23, 3, 29, 2, 30⟩ := by
  have h : TmElements.Names ⟨59, 59, 23, 0, 29, 2, 30⟩ ⟨30, 1, 28, by decide, by decide⟩ :=
    ⟨by decide, by decide, by decide, rfl, rfl, rfl⟩
  exact (breakTime_makeTime h (by decide +kernel)).trans (by decide +kernel)

end SmartDoor.Clock
