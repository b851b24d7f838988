import SmartDoor.Clock.Dates

/-!
# The clock chip

`_libraries/DS1307RTC` keeps the time in the seven registers of a DS1307, two decimal digits a
byte. The year is counted from 2000 there, in a byte that wraps, and the top bit of the seconds
stops the clock. The chip keeps the bytes that it is sent; each transfer may fail.
-/

namespace SmartDoor.Clock

open Segments

/-- The registers: seconds, minutes, hours, day of the week, day, month, year. -/
abbrev Registers := Vector UInt8 7

/-- `dec2bcd(num)` -/
def dec2bcd (num : UInt8) : UInt8 := num / 10 * 16 + num % 10

/-- `bcd2dec(num)` -/
def bcd2dec (num : UInt8) : UInt8 := num / 16 * 10 + num % 16

namespace DS1307RTC

/-- What the bus answers: whether `endTransmission` is 0, and what `available` is then. -/
structure Wire where
  ack : Bool
  available : Nat

/-- A bus on which all goes well. -/
def Wire.good : Wire := ⟨true, 7⟩

/-- `RTC.read(tm)`: the fields are filled also when the clock is halted. -/
def read (wire : Wire) (chip : Registers) (tm : TmElements) : TmElements × Bool :=
  if wire.ack = false then (tm, false)
  else if wire.available < 7 then (tm, false)
  else
    let sec := chip[0]
    (⟨bcd2dec (sec &&& 0x7f), bcd2dec chip[1], bcd2dec (chip[2] &&& 0x3f), bcd2dec chip[3],
      bcd2dec chip[4], bcd2dec chip[5], bcd2dec chip[6] + 30⟩, sec &&& 0x80 = 0)

/-- `RTC.write(tm)` -/
def write (wire : Wire) (tm : TmElements) (chip : Registers) : Registers × Bool :=
  if wire.ack = false then (chip, false)
  else (#v[dec2bcd tm.Second, dec2bcd tm.Minute, dec2bcd tm.Hour, dec2bcd tm.Wday,
    dec2bcd tm.Day, dec2bcd tm.Month, dec2bcd (tm.Year - 30)], true)

/-- `RTC.get()`; nothing if `makeTime` reads past its array. -/
def get (wire : Wire) (chip : Registers) : Option UInt32 :=
  let (tm, ok) := read wire chip ⟨0, 0, 0, 0, 0, 0, 0⟩
  if ok then makeTime tm else some 0

/-- The first write of `set`, with the bit that stops the clock. -/
def stopped (wire : Wire) (tm : TmElements) (chip : Registers) : Registers :=
  (write wire { tm with Second := tm.Second ||| 0x80 } chip).1

/-- The second write of `set`, without it. -/
def started (wire : Wire) (tm : TmElements) (chip : Registers) : Registers :=
  (write wire { tm with Second := (tm.Second ||| 0x80) &&& 0x7f } chip).1

/-- `RTC.set(t)`, with the answers of the bus to its two writes. It answers nothing. -/
def set (first second : Wire) (t : UInt32) (chip : Registers) : Option Registers := do
  let tm ← breakTime t
  return started second tm (stopped first tm chip)

end DS1307RTC

/-! ## Two digits a byte -/

/-- What holds of all bytes is checked one by one. -/
theorem forall_byte {P : UInt8 → Prop} (h : ∀ n : Fin 256, P (UInt8.ofNat n.val)) (x : UInt8) :
    P x := by
  have hx := h ⟨x.toNat, x.toNat_lt⟩
  rwa [UInt8.ofNat_toNat] at hx

theorem bcd2dec_dec2bcd : ∀ x : UInt8, x.toNat < 160 → bcd2dec (dec2bcd x) = x :=
  forall_byte (by decide +kernel)

/-- The years before 2000 come back 96 years later. -/
theorem year_survives : ∀ y : UInt8, y.toNat < 137 →
    (bcd2dec (dec2bcd (y - 30)) + 30).toNat = if 30 ≤ y.toNat then y.toNat else y.toNat + 96 :=
  forall_byte (by decide +kernel)

/-- The bit that stops the clock is lost where the digits overflow the byte. -/
theorem halts_iff : ∀ x : UInt8, x.toNat < 60 →
    (dec2bcd (x ||| 0x80) &&& 0x80 ≠ 0 ↔ x.toNat < 32) :=
  forall_byte (by decide +kernel)

/-- The seconds that are written to start the clock. -/
theorem seconds_survive : ∀ x : UInt8, x.toNat < 60 →
    dec2bcd ((x ||| 0x80) &&& 0x7f) &&& 0x80 = 0 ∧
      bcd2dec (dec2bcd ((x ||| 0x80) &&& 0x7f) &&& 0x7f) = x :=
  forall_byte (by decide +kernel)

theorem hours_survive : ∀ x : UInt8, x.toNat < 24 → bcd2dec (dec2bcd x &&& 0x3f) = x :=
  forall_byte (by decide +kernel)

/-! ## Setting the clock and reading it -/

namespace DS1307RTC

/-- The year that comes back. -/
def century (y : Nat) : Nat := if 30 ≤ y then y else y + 96

theorem leapYear_century : ∀ y : Fin 137, leapYear (century y) = leapYear y := by
  decide +kernel

/-- What is read after `set`: the date and the time, in a year that the chip can count. -/
theorem read_started {tm : TmElements} {d : Date} (h : tm.Names d)
    (hyear : d.year < 137) (hwday : tm.Wday.toNat ≤ 7) (chip : Registers) (empty : TmElements) :
    read .good (started .good tm chip) empty =
      ({ tm with Year := UInt8.ofNat (century d.year) }, true) := by
  obtain ⟨hrun, hsecond⟩ := seconds_survive tm.Second h.second
  have hday := d.day_lt_thirtyOne
  have hmonth := d.month_lt
  have hy := year_survives tm.Year (by rw [h.year]; exact hyear)
  have hyear' : bcd2dec (dec2bcd (tm.Year - 30)) + 30 = UInt8.ofNat (century d.year) := by
    apply UInt8.toNat_inj.mp
    rw [hy, h.year, UInt8.toNat_ofNat', century]
    split <;> omega
  simp only [read, started, write, Wire.good, Bool.true_eq_false, if_false, Nat.lt_irrefl]
  simp [hrun, hsecond, hours_survive tm.Hour h.hour,
    bcd2dec_dec2bcd tm.Minute (by have := h.minute; omega),
    bcd2dec_dec2bcd tm.Wday (by omega), bcd2dec_dec2bcd tm.Day (by rw [h.day]; omega),
    bcd2dec_dec2bcd tm.Month (by rw [h.month]; omega), hyear']

/-- The days between the date that is set and the one that comes back. -/
theorem start_century : ∀ y : Fin 137, start yearLength (century y) =
    start yearLength y + if 30 ≤ y.val then 0 else 35064 := by
  decide +kernel

/-- The date that comes back. -/
theorem exists_century {d : Date} (h : d.year < 137) : ∃ d' : Date, d'.year = century d.year ∧
    d'.month = d.month ∧ d'.day = d.day ∧
      d'.number = d.number + if 30 ≤ d.year then 0 else 35064 := by
  have hleap := leapYear_century ⟨d.year, h⟩
  have hstart := start_century ⟨d.year, h⟩
  simp only at hleap hstart
  have hlength : monthLength (century d.year) = monthLength d.year := by
    funext m
    rw [monthLength, monthLength, hleap]
  refine ⟨⟨century d.year, d.month, d.day, d.month_lt, by rw [hlength]; exact d.day_lt⟩, rfl, rfl,
    rfl, ?_⟩
  simp only [Date.number, hlength, hstart]
  omega

/-- The times of the years that the chip can count. -/
theorem le_year_iff {tm : TmElements} {d : Date} (h : tm.Names d) :
    946684800 ≤ tm.seconds d ↔ 30 ≤ d.year := by
  have hcentury : start yearLength 30 = 10957 := by decide +kernel
  have hs := h.second
  have hm := h.minute
  have hh := h.hour
  have hyear := d.within_year
  rw [TmElements.seconds]
  constructor
  · intro hle
    by_contra hlt
    have hbefore : start yearLength (d.year + 1) ≤ start yearLength 30 :=
      start_mono _ (by omega)
    have := hyear.2
    omega
  · intro hle
    have hafter : start yearLength 30 ≤ start yearLength d.year := start_mono _ hle
    have := hyear.1
    omega

end DS1307RTC

open DS1307RTC

/-- With a bus on which all goes well, `get` after `set` answers the time that was set, if it is
not before 2000; an earlier one comes back 96 years later. -/
theorem rtc_get_set (t : UInt32) (chip : Registers) :
    DS1307RTC.set .good .good t chip >>= DS1307RTC.get .good =
      some (if 946684800 ≤ t then t else t + 3029529600) := by
  obtain ⟨tm, d, hbreak, hnames, hseconds, hwday⟩ := breakTime_eq t
  have ht := t.toNat_lt
  have hyear : d.year < 137 := d.year_lt (by rw [TmElements.seconds] at hseconds; omega)
  obtain ⟨d', hyear', hmonth', hday', hnumber'⟩ := exists_century hyear
  have hcentury : (UInt8.ofNat (century d.year)).toNat = d'.year := by
    rw [hyear', UInt8.toNat_ofNat', century]
    split <;> omega
  have hnames' : TmElements.Names { tm with Year := UInt8.ofNat (century d.year) } d' :=
    ⟨hnames.second, hnames.minute, hnames.hour, hnames.day.trans (by rw [hday']),
      hnames.month.trans (by rw [hmonth']), hcentury⟩
  have hread := read_started hnames hyear (by omega) (stopped .good tm chip) ⟨0, 0, 0, 0, 0, 0, 0⟩
  have hset : set .good .good t chip = some (started .good tm (stopped .good tm chip)) := by
    rw [DS1307RTC.set, hbreak]
    rfl
  rw [hset]
  change DS1307RTC.get .good (started .good tm (stopped .good tm chip)) = _
  rw [DS1307RTC.get, hread]
  simp only [if_true]
  rw [makeTime_eq hnames', Option.some.injEq]
  have hle : 946684800 ≤ t ↔ 30 ≤ d.year := by
    rw [UInt32.le_iff_toNat_le, ← hseconds]
    exact le_year_iff hnames
  apply UInt32.toNat_inj.mp
  simp only [TmElements.seconds, hnumber', hle] at hseconds ⊢
  by_cases h : 30 ≤ d.year
  · rw [if_pos h, if_pos h, UInt32.toNat_ofNat']
    omega
  · have hbefore := mt hle.mp h
    rw [UInt32.le_iff_toNat_le] at hbefore
    simp only [UInt32.reduceToNat] at hbefore
    rw [if_neg h, if_neg h, UInt32.toNat_ofNat', UInt32.toNat_add]
    simp only [UInt32.reduceToNat]
    omega

/-- The first write of `set`, which is to stop the clock, stops it only in the first 32 seconds of
a minute. -/
theorem rtc_set_stops (t : UInt32) (chip : Registers) : ∃ tm, breakTime t = some tm ∧
    ((DS1307RTC.read .good (stopped .good tm chip) tm).2 = false ↔ t % 60 < 32) := by
  obtain ⟨tm, d, hbreak, hnames, hseconds, -⟩ := breakTime_eq t
  refine ⟨tm, hbreak, ?_⟩
  have hsecond : t % 60 < 32 ↔ tm.Second.toNat < 32 := by
    have hs := hnames.second
    rw [UInt32.lt_iff_toNat_lt, UInt32.toNat_mod, ← hseconds, TmElements.seconds]
    simp only [UInt32.reduceToNat]
    omega
  rw [hsecond, ← halts_iff tm.Second hnames.second]
  simp [DS1307RTC.read, stopped, write, Wire.good]

/-- `get` reads past the lengths of the months exactly when the bus answers, the clock runs, and
the register of the month holds 14 or more. -/
theorem rtc_get_reads_past (wire : Wire) (chip : Registers) :
    DS1307RTC.get wire chip = none ↔ wire.ack = true ∧ 7 ≤ wire.available ∧
      chip[0] &&& 0x80 = 0 ∧ 14 ≤ (bcd2dec chip[5]).toNat := by
  rw [DS1307RTC.get, DS1307RTC.read]
  by_cases hack : wire.ack = false
  · simp [hack]
  · by_cases hfew : wire.available < 7
    · simp [hack, hfew]
    · by_cases hhalted : chip[0] &&& 0x80 = 0
      · simp [hack, hfew, hhalted, makeTime_eq_none, Nat.not_lt.mp hfew]
      · simp [hack, hfew, hhalted]

end SmartDoor.Clock
