import BurdahDos.Clock.Calendar
import BurdahDos.Lib.Run
import Mathlib

/-!
# The clock from call to call

The kernel adds the midnights to its days only when the clock is read, and a call that sets the date
or the time reads it, and writes all of it back.  `Wall` is a clock that counts days and ticks as
they pass.

* `dosGet_dosSet`: the date and the time that have been set are read.
* `clock_refines`: in every run the kernel's clock is the clock on the wall.
* `initClkDriver_restores`: what is set is there again after a restart.
-/

set_option autoImplicit false

namespace BurdahDos
namespace Clock

/-! ## Ticks and hundredths -/

/-- A time of day. -/
structure DosTime.Valid (t : DosTime) : Prop where
  hour : t.hour ≤ 23
  minute : t.minute ≤ 59
  second : t.second ≤ 59
  hundredth : t.hundredth ≤ 99

theorem hundredths_eq {n : ℕ} (h : n < dayTicks) : hundredths n = n * 327680 / 59659 := by
  rw [dayTicks] at h
  have hq := Nat.div_add_mod (5 * n) 59659
  have hr := Nat.mod_lt (5 * n) (show 0 < 59659 by omega)
  simp only [hundredths]
  rw [Nat.mod_eq_of_lt (show 5 * n < 4294967296 by omega)]
  generalize 5 * n / 59659 = q at *
  generalize 5 * n % 59659 = r at *
  have hn : n * 327680 = r * 65536 + 59659 * (q * 65536) := by omega
  rw [hn, Nat.add_mul_div_left _ _ (by omega),
    Nat.mod_eq_of_lt (show r * 65536 < 4294967296 by omega), Nat.mod_eq_of_lt (by omega),
    Nat.add_comm]

theorem ticksOf_eq {hs : ℕ} (h : hs < 8640000) : ticksOf hs = hs * 59659 / 327680 := by
  have hq := Nat.div_add_mod hs 65536
  have hr := Nat.mod_lt hs (show 0 < 65536 by omega)
  rw [ticksOf]
  generalize hs / 65536 = q at *
  generalize hs % 65536 = r at *
  have hn : hs * 59659 = r * 59659 + 65536 * (q * 59659) := by omega
  rw [hn, show 327680 = 65536 * 5 from rfl, ← Nat.div_div_eq_div_mul,
    Nat.add_mul_div_left _ _ (by omega), Nat.mod_eq_of_lt (show r * 59659 < 4294967296 by omega),
    Nat.mod_eq_of_lt (by omega), Nat.add_comm]

theorem ticksOf_lt {hs : ℕ} (h : hs < 8640000) : ticksOf hs < dayTicks := by
  rw [ticksOf_eq h, dayTicks]
  omega

theorem hundredths_lt {n : ℕ} (h : n < dayTicks) : hundredths n < 8640000 := by
  rw [hundredths_eq h]
  rw [dayTicks] at h
  omega

/-- **The time that is read** is the one that has been set, less six hundredths at most. -/
theorem hundredths_ticksOf {hs : ℕ} (h : hs < 8640000) :
    hundredths (ticksOf hs) ≤ hs ∧ hs ≤ hundredths (ticksOf hs) + 6 := by
  rw [hundredths_eq (ticksOf_lt h), ticksOf_eq h]
  omega

theorem timeOf_hs {hs : ℕ} (h : hs < 8640000) : (timeOf hs).hs = hs := by
  simp only [timeOf, DosTime.hs]
  omega

theorem DosTime.Valid.hs_eq {t : DosTime} (h : t.Valid) :
    t.hs = 6000 * (60 * t.hour + t.minute) + (100 * t.second + t.hundredth) := by
  obtain ⟨h1, h2, h3, h4⟩ := h
  rw [DosTime.hs, Nat.mod_eq_of_lt (by omega)]

theorem DosTime.Valid.hs_lt {t : DosTime} (h : t.Valid) : t.hs < 8640000 := by
  rw [h.hs_eq]
  obtain ⟨h1, h2, h3, h4⟩ := h
  omega

/-! ## The clock on the wall -/

/-- The days since 1980 and the ticks since midnight. -/
structure Wall where
  day : ℕ
  ticks : ℕ

/-- What happens to the clock. -/
inductive Event
  | tick
  | getTime
  | setTime (dt : DosTime)
  | getDate
  | setDate (dd : DosDate)

/-- What a call answers. -/
inductive Answer
  | none
  | time (dt : DosTime)
  | date (dd : DosDate) (weekday : ℕ)
  | done (ok : Bool)

/-- A tick or a call. -/
def step (several : Bool) (s : State) : Event → Answer × State
  | .tick => (.none, { s with bios := s.bios.tick several })
  | .getTime => (.time (dosGetTime s).1, (dosGetTime s).2)
  | .setTime dt => (.done (dosSetTime dt s).1, (dosSetTime dt s).2)
  | .getDate => (.date (dosGetDate s).1 (dosGetDate s).2.1, (dosGetDate s).2.2)
  | .setDate dd => (.done (dosSetDate dd s).1, (dosSetDate dd s).2)

/-- A tick at midnight is the first of another day. -/
def Wall.tick (w : Wall) : Wall :=
  if w.ticks + 1 = dayTicks then ⟨w.day + 1, 0⟩ else ⟨w.day, w.ticks + 1⟩

open Classical in
/-- The same with the clock on the wall.  Setting the date sets the time to what a call would have
answered. -/
noncomputable def Wall.step (w : Wall) : Event → Answer × Wall
  | .tick => (.none, w.tick)
  | .getTime => (.time (timeOf (w.ticks * 327680 / 59659)), w)
  | .setTime dt =>
    if dt.Valid then (.done true, ⟨w.day, dt.hs * 59659 / 327680⟩) else (.done false, w)
  | .getDate => (.date (dateOf w.day) ((w.day + 2) % 65536 % 7), w)
  | .setDate dd =>
    if dd.Valid ∧ dd.year ≤ 2099 then
      (.done true, ⟨dd.dayNumber, w.ticks * 327680 / 59659 * 59659 / 327680⟩)
    else (.done false, w)

/-- The clock that the kernel's state stands for: midnights count at once. -/
def State.wall (s : State) : Wall := ⟨s.days + s.bios.midnights, s.bios.ticks⟩

/-- The BIOS counts the midnight that may be now: it does not count any above 255, and some do not
count a second one. -/
def Counted (several : Bool) (s : State) : Event → Prop
  | .tick => s.bios.ticks + 1 = dayTicks →
      s.days + s.bios.midnights + 1 < 65536 ∧
        (s.bios.midnights = 0 ∨ (several = true ∧ s.bios.midnights < 255))
  | _ => True

/-! ## One event -/

/-- The ticks are those of a day, and the days those of a word. -/
structure State.Running (s : State) : Prop where
  ticks : s.bios.ticks < dayTicks
  days : s.days + s.bios.midnights < 65536

theorem clkInput_eq {s : State} (h : s.days + s.bios.midnights < 65536) :
    clkInput s = (⟨s.days + s.bios.midnights, timeOf (hundredths s.bios.ticks)⟩,
      ⟨{ s.bios with midnights := 0 }, s.days + s.bios.midnights⟩) := by
  rw [clkInput, readPCClock, Nat.mod_eq_of_lt h]

section
variable {dt : DosTime} {dd : DosDate}

theorem dosSetTime_valid (h : dt.Valid) (s : State) :
    dosSetTime dt s = (true, clkOutput { (clkInput s).1 with time := dt } (clkInput s).2) := by
  obtain ⟨h1, h2, h3, h4⟩ := h
  rw [dosSetTime, if_neg (by omega)]

/-- The call that sets the time refuses those that there are not. -/
theorem dosSetTime_invalid (h : ¬dt.Valid) (s : State) : dosSetTime dt s = (false, s) := by
  rw [dosSetTime, if_pos]
  by_contra hnot
  exact h ⟨by omega, by omega, by omega, by omega⟩

theorem yearStart_2100 : yearStart 2100 = 43830 := by
  have := @yearStart_eq 2100 (by omega)
  norm_num at this
  exact this

theorem DosDate.Valid.daysFrom_eq (h : dd.Valid) (hyear : dd.year ≤ 2099) :
    daysFromYearMonthDay dd.year dd.month dd.monthday = dd.dayNumber ∧ dd.dayNumber < 43830 := by
  have hlt := h.dayNumber_lt.trans_le
    (yearStart_le (by have := h.year; omega) (show dd.year + 1 ≤ 2100 by omega))
  rw [yearStart_2100] at hlt
  rw [h.daysFrom, if_neg (by omega), Nat.add_zero, Nat.mod_eq_of_lt (by omega)]
  exact ⟨rfl, hlt⟩

theorem dosSetDate_valid (h : dd.Valid) (hyear : dd.year ≤ 2099) (s : State) :
    dosSetDate dd s =
      (true, clkOutput { (clkInput s).1 with clkDays := dd.dayNumber } (clkInput s).2) := by
  rw [← (h.daysFrom_eq hyear).1]
  obtain ⟨h1, h2, h3⟩ := h
  rw [dosSetDate, if_neg (by omega)]

/-- The call that sets the date refuses those that there are not, and those behind 2099. -/
theorem dosSetDate_invalid (h : ¬(dd.Valid ∧ dd.year ≤ 2099)) (s : State) :
    dosSetDate dd s = (false, s) := by
  rw [dosSetDate, if_pos]
  by_contra hnot
  exact h ⟨⟨by omega, by omega, by omega⟩, by omega⟩

end

/-- A tick of the BIOS is one of the clock on the wall. -/
theorem State.Running.tick {several : Bool} {s : State} (h : s.Running)
    (hcount : Counted several s .tick) :
    ({ s with bios := s.bios.tick several } : State).wall = s.wall.tick ∧
      ({ s with bios := s.bios.tick several } : State).Running := by
  rw [Bios.tick, Wall.tick]
  by_cases hmidnight : s.bios.ticks + 1 = dayTicks
  · obtain ⟨hdays, hone⟩ := hcount hmidnight
    have hnew : (if several then (s.bios.midnights + 1) % 256 else 1) = s.bios.midnights + 1 := by
      split
      next => omega
      next hone' => simpa [hone'] using hone
    rw [if_pos hmidnight, if_pos (show s.wall.ticks + 1 = dayTicks from hmidnight), hnew]
    exact ⟨rfl, ⟨show 0 < dayTicks by decide, hdays⟩⟩
  · have hlt : s.bios.ticks + 1 < dayTicks := by
      have := h.ticks
      omega
    rw [if_neg hmidnight, if_neg (show ¬s.wall.ticks + 1 = dayTicks from hmidnight)]
    exact ⟨rfl, ⟨hlt, h.days⟩⟩

/-- What is written is what the clock goes on with. -/
theorem clkOutput_spec {clk : ClockRecord} {s : State} (hmidnights : s.bios.midnights = 0)
    (hdays : clk.clkDays < 65536) (htime : clk.time.hs < 8640000) :
    (clkOutput clk s).wall = ⟨clk.clkDays, clk.time.hs * 59659 / 327680⟩ ∧
      (clkOutput clk s).Running := by
  refine ⟨?_, ⟨ticksOf_lt htime, ?_⟩⟩
  · rw [← ticksOf_eq htime, State.wall, clkOutput]
    dsimp only
    rw [hmidnights, Nat.add_zero]
  · rw [clkOutput]
    dsimp only
    rw [hmidnights]
    exact hdays

/-- **What one event does** to the clock is what it does to the clock on the wall. -/
theorem State.Running.step {several : Bool} {s : State} (h : s.Running) {e : Event}
    (hcount : Counted several s e) :
    (Clock.step several s e).1 = (s.wall.step e).1 ∧
      (Clock.step several s e).2.wall = (s.wall.step e).2 ∧
      (Clock.step several s e).2.Running := by
  have hticks := hundredths_lt h.ticks
  cases e with
  | tick => exact ⟨rfl, h.tick hcount⟩
  | getTime =>
    rw [Clock.step, Wall.step, dosGetTime, clkInput_eq h.days]
    refine ⟨?_, rfl, ⟨h.ticks, h.days⟩⟩
    rw [hundredths_eq h.ticks]
    rfl
  | setTime dt =>
    rw [Clock.step, Wall.step]
    by_cases hdt : dt.Valid
    · rw [dosSetTime_valid hdt, if_pos hdt, clkInput_eq h.days]
      exact ⟨rfl, clkOutput_spec rfl h.days hdt.hs_lt⟩
    · rw [dosSetTime_invalid hdt, if_neg hdt]
      exact ⟨rfl, rfl, h⟩
  | getDate =>
    rw [Clock.step, Wall.step, dosGetDate, clkInput_eq h.days]
    exact ⟨rfl, rfl, ⟨h.ticks, h.days⟩⟩
  | setDate dd =>
    rw [Clock.step, Wall.step]
    by_cases hdd : dd.Valid ∧ dd.year ≤ 2099
    · have hlt := (hdd.1.daysFrom_eq hdd.2).2
      have hhs := timeOf_hs hticks
      have hnow : s.wall.ticks = s.bios.ticks := rfl
      rw [dosSetDate_valid hdd.1 hdd.2, if_pos hdd, clkInput_eq h.days, hnow,
        ← hundredths_eq h.ticks]
      obtain ⟨hwall, hrun⟩ := @clkOutput_spec
        ⟨dd.dayNumber, timeOf (hundredths s.bios.ticks)⟩
        ⟨{ s.bios with midnights := 0 }, s.days + s.bios.midnights⟩ rfl
        (show dd.dayNumber < 65536 by omega) (show DosTime.hs _ < 8640000 by rw [hhs]; exact hticks)
      dsimp only at hwall
      rw [hhs] at hwall
      exact ⟨rfl, hwall, hrun⟩
    · rw [dosSetDate_invalid hdd, if_neg hdd]
      exact ⟨rfl, rfl, h⟩

/-- **The date and the time that have been set are read**, whatever the clock has been: the date
with its day of the week, and the time, less six hundredths at most. -/
theorem dosGet_dosSet {dd : DosDate} {dt : DosTime} (hdd : dd.Valid) (hyear : dd.year ≤ 2099)
    (hdt : dt.Valid) (s : State) :
    ∃ hs s', dosGetDate (dosSetTime dt (dosSetDate dd s).2).2 = (dd, (dd.dayNumber + 2) % 7, s') ∧
      (dosGetTime s').1 = timeOf hs ∧ hs ≤ dt.hs ∧ dt.hs ≤ hs + 6 := by
  have hlt := (hdd.daysFrom_eq hyear).2
  have hword : (dd.dayNumber + 2) % 65536 = dd.dayNumber + 2 := Nat.mod_eq_of_lt (by omega)
  have hdays : dd.dayNumber % 65536 = dd.dayNumber := Nat.mod_eq_of_lt (by omega)
  obtain ⟨b, hset⟩ : ∃ b, (dosSetTime dt (dosSetDate dd s).2).2 =
      ⟨⟨ticksOf dt.hs, 0, b⟩, dd.dayNumber⟩ := by
    rw [dosSetDate_valid hdd hyear, dosSetTime_valid hdt]
    simp only [clkOutput, clkInput, readPCClock, Nat.add_zero, hdays]
    exact ⟨_, rfl⟩
  rw [hset]
  refine ⟨hundredths (ticksOf dt.hs), ⟨⟨ticksOf dt.hs, 0, b⟩, dd.dayNumber⟩, ?_, ?_,
    hundredths_ticksOf hdt.hs_lt⟩
  · simp only [dosGetDate, clkInput, readPCClock, Nat.add_zero, hdays, hword, dateOf_dayNumber hdd]
  · simp only [dosGetTime, clkInput, readPCClock]

/-- New Year's Eve of 1999. -/
theorem dosGet_dosSet_1999 :
    ∃ hs s', dosGetDate (dosSetTime ⟨23, 59, 59, 99⟩
        (dosSetDate ⟨1999, 12, 31⟩ ⟨⟨0, 0, ⟨0, 0, 0, 0, 0, 0, 0⟩⟩, 0⟩).2).2 =
        (⟨1999, 12, 31⟩, ((⟨1999, 12, 31⟩ : DosDate).dayNumber + 2) % 7, s') ∧
      (dosGetTime s').1 = timeOf hs ∧ hs ≤ (⟨23, 59, 59, 99⟩ : DosTime).hs ∧
      (⟨23, 59, 59, 99⟩ : DosTime).hs ≤ hs + 6 :=
  dosGet_dosSet ⟨by decide, by decide, by decide⟩ (by decide)
    ⟨by decide, by decide, by decide, by decide⟩ _

/-! ## Runs -/

/-- The answers of a run, and the state after it. -/
def run (several : Bool) (s : State) : List Event → List Answer × State
  | [] => ([], s)
  | e :: evs =>
    let x := step several s e
    let y := run several x.2 evs
    (x.1 :: y.1, y.2)

noncomputable def Wall.run (w : Wall) : List Event → List Answer × Wall
  | [] => ([], w)
  | e :: evs =>
    let x := w.step e
    let y := x.2.run evs
    (x.1 :: y.1, y.2)

/-- **The kernel's clock is the clock on the wall**, in every run in which the BIOS counts the
midnights and the days stay below 65536: the answers are the same, and so is what comes after. -/
theorem clock_refines {several : Bool} {s : State} (h : s.Running) {evs : List Event}
    (hcount : Along (fun s e => (step several s e).2) (Counted several) s evs) :
    (run several s evs).1 = (s.wall.run evs).1 ∧
      (run several s evs).2.wall = (s.wall.run evs).2 ∧ (run several s evs).2.Running := by
  induction evs generalizing s with
  | nil => exact ⟨rfl, rfl, h⟩
  | cons e evs ih =>
    obtain ⟨hans, hwall, hrun⟩ := h.step hcount.1
    obtain ⟨hans', hwall', hrun'⟩ := ih hrun hcount.2
    rw [run, Wall.run]
    refine ⟨?_, ?_, hrun'⟩
    · show _ :: _ = _ :: _
      rw [hans, hans', hwall]
    · rw [← hwall]
      exact hwall'

/-- A day that ends after the date has been set. -/
theorem clock_refines_midnight :
    (run false ⟨⟨1573039, 0, ⟨0, 0, 0, 0, 0, 0, 0⟩⟩, 100⟩ [.tick, .getDate]).1 =
        ((⟨⟨1573039, 0, ⟨0, 0, 0, 0, 0, 0, 0⟩⟩, 100⟩ : State).wall.run [.tick, .getDate]).1 ∧
      (run false ⟨⟨1573039, 0, ⟨0, 0, 0, 0, 0, 0, 0⟩⟩, 100⟩ [.tick, .getDate]).2.wall =
        ((⟨⟨1573039, 0, ⟨0, 0, 0, 0, 0, 0, 0⟩⟩, 100⟩ : State).wall.run [.tick, .getDate]).2 ∧
      (run false ⟨⟨1573039, 0, ⟨0, 0, 0, 0, 0, 0, 0⟩⟩, 100⟩ [.tick, .getDate]).2.Running :=
  clock_refines ⟨by decide, by decide⟩ ⟨fun _ => ⟨by decide, .inl rfl⟩, trivial, trivial⟩

/-! ## After a restart -/

theorem initBcdToByte_byteToBcd {x : ℕ} (h : x < 100) : initBcdToByte (byteToBcd x) = x := by
  have hall : ∀ x < 100, initBcdToByte (byteToBcd x) = x := by decide
  exact hall x h

/-- **What is written is there again after a restart**: the date, and the time without the
hundredths, whatever the BIOS and the kernel start with. -/
theorem initClkDriver_restores {clk : ClockRecord} (htime : clk.time.Valid)
    (hdays : clk.clkDays < 43830) (s s' : State)
    (hbattery : s'.bios.battery = (clkOutput clk s).bios.battery) :
    (initClkDriver s').wall =
      ⟨clk.clkDays, ticksOf ({ clk.time with hundredth := 0 } : DosTime).hs⟩ := by
  have hvalid := dateOf_valid clk.clkDays
  have hnum := dayNumber_dateOf clk.clkDays
  have hyear : (dateOf clk.clkDays).year ≤ 2099 := by
    by_contra hgt
    have := @yearStart_le 2100 (dateOf clk.clkDays).year (by omega) (by omega)
    rw [yearStart_2100] at this
    rw [DosDate.dayNumber] at hnum
    omega
  have hmonthday := hvalid.monthday_le
  obtain ⟨hh, hm, hsec, hhs⟩ := htime
  have hfrom := hvalid.year
  have hmonth := hvalid.month
  have hcentury : initBcdToByte s'.bios.battery.century = (dateOf clk.clkDays).year / 100 := by
    rw [hbattery]
    exact initBcdToByte_byteToBcd (by omega)
  have hyy : initBcdToByte s'.bios.battery.year = (dateOf clk.clkDays).year % 100 := by
    rw [hbattery]
    exact initBcdToByte_byteToBcd (by omega)
  have hmm : initBcdToByte s'.bios.battery.month = (dateOf clk.clkDays).month := by
    rw [hbattery]
    exact initBcdToByte_byteToBcd (by omega)
  have hdd : initBcdToByte s'.bios.battery.day = (dateOf clk.clkDays).monthday := by
    rw [hbattery]
    exact initBcdToByte_byteToBcd (by omega)
  have hhour : initBcdToByte s'.bios.battery.hour = clk.time.hour := by
    rw [hbattery]
    exact initBcdToByte_byteToBcd (by omega)
  have hminute : initBcdToByte s'.bios.battery.minute = clk.time.minute := by
    rw [hbattery]
    exact initBcdToByte_byteToBcd (by omega)
  have hsecond : initBcdToByte s'.bios.battery.second = clk.time.second := by
    rw [hbattery]
    exact initBcdToByte_byteToBcd (by omega)
  have hread : 100 * ((dateOf clk.clkDays).year / 100) + (dateOf clk.clkDays).year % 100 =
      (dateOf clk.clkDays).year := Nat.div_add_mod _ _
  have htime' : DosTime.Valid ⟨clk.time.hour, clk.time.minute, clk.time.second, 0⟩ :=
    ⟨hh, hm, hsec, Nat.zero_le _⟩
  simp only [initClkDriver, hcentury, hyy, hmm, hdd, hhour, hminute, hsecond, hread]
  rw [if_neg (by omega), dosSetDate_valid hvalid hyear, hnum, dosSetTime_valid htime']
  simp only [State.wall, clkOutput, clkInput, readPCClock, Nat.add_zero]
  rw [Nat.mod_eq_of_lt (by omega)]

theorem initClkDriver_restores_noon :
    (initClkDriver (clkOutput ⟨10000, 12, 34, 56, 78⟩ ⟨⟨0, 0, ⟨0, 0, 0, 0, 0, 0, 0⟩⟩, 0⟩)).wall =
      ⟨10000, ticksOf (⟨12, 34, 56, 0⟩ : DosTime).hs⟩ :=
  @initClkDriver_restores ⟨10000, 12, 34, 56, 78⟩
    ⟨by decide, by decide, by decide, by decide⟩ (by decide) _ _ rfl

end Clock
end BurdahDos
