import Mathlib

/-!
# The system clock

`kernel/systime.c`, `kernel/sysclk.c`, `kernel/initclk.c` and `drivers/rdpcclk.asm`.  The driver of
`CLOCK$` keeps the days since 1980 and reads the time of day from the BIOS, which counts ticks and
the midnights that nobody has asked for yet; it also sets a clock with a battery.  `unsigned` has 16
bits and `ticks_t` 32.  Another driver in place of `CLOCK$` is left out, and so are its errors.
-/

set_option autoImplicit false

namespace BurdahDos
namespace Clock

/-! ## Dates -/

/-- `days` -/
def days : Bool → ℕ → ℕ
  | false, m => [0, 31, 59, 90, 120, 151, 181, 212, 243, 273, 304, 334, 365].getD m 0
  | true, m => [0, 31, 60, 91, 121, 152, 182, 213, 244, 274, 305, 335, 366].getD m 0

/-- The table that `is_leap_year_monthdays` chooses. -/
def isLeapYear (y : ℕ) : Bool := !(y % 4 != 0 || y == 2100)

/-- `is_leap_year_monthdays` -/
def monthdays (y : ℕ) : ℕ → ℕ := days (isLeapYear y)

/-- `DaysFromYearMonthDay` -/
def daysFromYearMonthDay (year month dayOfMonth : ℕ) : ℕ :=
  if year < 1980 then 0
  else
    (dayOfMonth + 65535 + monthdays year (month - 1) + (year - 1980) * 365 +
      (year - 1980 + 3) / 4) % 65536

/-- `struct dosdate` -/
structure DosDate where
  year : ℕ
  month : ℕ
  monthday : ℕ
  deriving DecidableEq

/-- The loop over the years: the year, and the days that are left. -/
def yearLoop : ℕ → ℕ → ℕ → ℕ × ℕ
  | 0, year, c => (year, c)
  | fuel + 1, year, c =>
    if monthdays year 12 ≤ c then yearLoop fuel (year + 1) (c - monthdays year 12) else (year, c)

/-- The loop over the months. -/
def monthLoop (pdays : ℕ → ℕ) (c : ℕ) : ℕ → ℕ → ℕ
  | 0, month => month
  | fuel + 1, month => if pdays month ≤ c then monthLoop pdays c fuel (month + 1) else month

/-- What `DosGetDate` and the driver make of the number of days.  A year takes 365 of them at least,
and the last month ends behind them. -/
def dateOf (clkDays : ℕ) : DosDate :=
  let (year, c) := yearLoop (clkDays / 365 + 1) 1980 clkDays
  let month := monthLoop (monthdays year) c 12 1
  ⟨year, month, c - monthdays year (month - 1) + 1⟩

/-! ## Times -/

/-- `struct dostime`, and what `struct ClockRecord` holds of it. -/
structure DosTime where
  hour : ℕ
  minute : ℕ
  second : ℕ
  hundredth : ℕ
  deriving DecidableEq

/-- What `C_INPUT` makes of the ticks: hundredths of a second. -/
def hundredths (clock : ℕ) : ℕ :=
  let ticks := 5 * clock % 4294967296
  ((ticks / 59659) * 65536 + (ticks % 59659) * 65536 % 4294967296 / 59659) % 4294967296

/-- The time in hundredths of a second. -/
def timeOf (ticks : ℕ) : DosTime :=
  ⟨ticks / 6000 / 60, ticks / 6000 % 60, ticks % 6000 / 100, ticks % 6000 % 100⟩

/-- The time in hundredths of a second that `C_OUTPUT` computes. -/
def DosTime.hs (t : DosTime) : ℕ :=
  (6000 * (60 * t.hour + t.minute) + (100 * t.second + t.hundredth)) % 4294967296

/-- The ticks for it. -/
def ticksOf (hs : ℕ) : ℕ :=
  (((hs / 65536) * 59659 + hs % 65536 * 59659 % 4294967296 / 65536) % 4294967296) / 5

/-! ## The machine -/

/-- Ticks in a day of the BIOS. -/
def dayTicks : ℕ := 1573040

/-- The registers of the clock with a battery, in BCD. -/
structure Battery where
  century : ℕ
  year : ℕ
  month : ℕ
  day : ℕ
  hour : ℕ
  minute : ℕ
  second : ℕ
  deriving DecidableEq

/-- What `int 1ah` keeps: the ticks since midnight, the midnights since they have been read last,
and the clock with a battery. -/
structure Bios where
  ticks : ℕ
  midnights : ℕ
  battery : Battery
  deriving DecidableEq

/-- The BIOS and `DaysSinceEpoch`. -/
structure State where
  bios : Bios
  days : ℕ
  deriving DecidableEq

/-- `struct ClockRecord` -/
structure ClockRecord where
  clkDays : ℕ
  time : DosTime

/-- A tick of the timer, with whether the BIOS counts several midnights, which it does in a byte. -/
def Bios.tick (several : Bool) (b : Bios) : Bios :=
  if b.ticks + 1 = dayTicks then
    { b with ticks := 0, midnights := if several then (b.midnights + 1) % 256 else 1 }
  else { b with ticks := b.ticks + 1 }

/-- `ReadPCClock`: the ticks; the midnights are added to `DaysSinceEpoch`. -/
def readPCClock (s : State) : ℕ × State :=
  (s.bios.ticks, ⟨{ s.bios with midnights := 0 }, (s.days + s.bios.midnights) % 65536⟩)

/-- `C_INPUT`.  `DaysSinceEpoch` is read after the ticks. -/
def clkInput (s : State) : ClockRecord × State :=
  let (clock, s) := readPCClock s
  (⟨s.days, timeOf (hundredths clock)⟩, s)

/-- `ByteToBcd` -/
def byteToBcd (x : ℕ) : ℕ := (x / 10 * 16 ||| x % 10) % 256

/-- `InitBcdToByte` -/
def initBcdToByte (x : ℕ) : ℕ := x / 16 % 16 * 10 + x % 16

/-- `C_OUTPUT` -/
def clkOutput (clk : ClockRecord) (s : State) : State :=
  let d := dateOf clk.clkDays
  { days := clk.clkDays
    bios :=
      { s.bios with
        ticks := ticksOf clk.time.hs
        battery :=
          { century := byteToBcd (d.year / 100)
            year := byteToBcd (d.year % 100)
            month := byteToBcd d.month
            day := byteToBcd d.monthday
            hour := byteToBcd clk.time.hour
            minute := byteToBcd clk.time.minute
            second := byteToBcd clk.time.second } } }

/-! ## Calls -/

/-- `DosGetTime` -/
def dosGetTime (s : State) : DosTime × State :=
  let (clk, s) := clkInput s
  (clk.time, s)

/-- `DosSetTime`, and whether it succeeds. -/
def dosSetTime (dt : DosTime) (s : State) : Bool × State :=
  if dt.hour > 23 ∨ dt.minute > 59 ∨ dt.second > 59 ∨ dt.hundredth > 99 then (false, s)
  else
    let (clk, s) := clkInput s
    (true, clkOutput { clk with time := dt } s)

/-- `DosGetDate`, with the day of the week. -/
def dosGetDate (s : State) : DosDate × ℕ × State :=
  let (clk, s) := clkInput s
  (dateOf clk.clkDays, (clk.clkDays + 2) % 65536 % 7, s)

/-- `DosSetDate`, and whether it succeeds. -/
def dosSetDate (dd : DosDate) (s : State) : Bool × State :=
  let pdays := monthdays dd.year
  if dd.year < 1980 ∨ dd.year > 2099 ∨ dd.month < 1 ∨ dd.month > 12 ∨ dd.monthday < 1 ∨
      dd.monthday > pdays dd.month - pdays (dd.month - 1) then (false, s)
  else
    let (clk, s) := clkInput s
    (true, clkOutput { clk with clkDays := daysFromYearMonthDay dd.year dd.month dd.monthday } s)

/-- `Init_clk_driver`: the date and the time of the clock with a battery are set. -/
def initClkDriver (s : State) : State :=
  let regs := s.bios.battery
  let cx := 100 * initBcdToByte regs.century + initBcdToByte regs.year
  let year := if cx ≥ 1900 ∧ cx < 1980 then cx + 100 else cx
  let s := (dosSetDate ⟨year, initBcdToByte regs.month, initBcdToByte regs.day⟩ s).2
  (dosSetTime ⟨initBcdToByte regs.hour, initBcdToByte regs.minute, initBcdToByte regs.second, 0⟩
    s).2

end Clock
end BurdahDos
