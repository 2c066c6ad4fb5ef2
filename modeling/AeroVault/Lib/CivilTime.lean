import Mathlib

/-! Instants as dates and times of the day in the proleptic Gregorian calendar, without
leap seconds.

An instant is counted in nanoseconds from the beginning of year 0 (`Civil.nanos`). The
count orders instants as their fields do, from the year down (`nanos_lt_iff_of_year`). -/
namespace AeroVault.Lib

/-! ### The calendar -/

def leapYear (year : Int) : Bool := year % 4 == 0 && (year % 100 != 0 || year % 400 == 0)

/-- Month 0 is there so that the days before a month can be summed from 0. -/
def daysInMonth (year : Int) : Nat → Nat
  | 1 | 3 | 5 | 7 | 8 | 10 | 12 => 31
  | 4 | 6 | 9 | 11 => 30
  | 2 => if leapYear year then 29 else 28
  | _ => 0

def daysBeforeMonth (year : Int) (month : Nat) : Nat := ((List.range month).map (daysInMonth year)).sum

/-- The days from the beginning of year 0. -/
def daysBeforeYear (year : Int) : Int := 365 * year + (year + 3) / 4 - (year + 99) / 100 + (year + 399) / 400

theorem daysBeforeMonth_succ (year : Int) (month : Nat) :
    daysBeforeMonth year (month + 1) = daysBeforeMonth year month + daysInMonth year month := by
  simp [daysBeforeMonth, List.range_succ]

theorem daysBeforeYear_succ (year : Int) :
    daysBeforeYear (year + 1) = daysBeforeYear year + daysBeforeMonth year 13 := by
  have hln : daysBeforeMonth year 13 = if leapYear year then 366 else 365 := by
    cases hl : leapYear year <;> simp [daysBeforeMonth, List.range_succ, daysInMonth, hl]
  rw [hln]
  simp only [daysBeforeYear, leapYear, Bool.and_eq_true, Bool.or_eq_true, beq_iff_eq, bne_iff_ne]
  split_ifs with hl
  · omega
  · omega

theorem daysBeforeMonth_le {year : Int} {month month' : Nat} (h : month < month') :
    daysBeforeMonth year month + daysInMonth year month ≤ daysBeforeMonth year month' := by
  rw [← daysBeforeMonth_succ]
  induction month', h using Nat.le_induction with
  | base => exact le_rfl
  | succ n _ ih =>
    rw [daysBeforeMonth_succ year n]
    omega

theorem daysBeforeYear_le {year year' : Int} (h : year < year') :
    daysBeforeYear year + daysBeforeMonth year 13 ≤ daysBeforeYear year' := by
  rw [← daysBeforeYear_succ]
  induction year', h using Int.leInduction with
  | base => exact le_rfl
  | succ n _ ih =>
    rw [daysBeforeYear_succ n]
    omega

/-! ### Instants -/

structure Civil where
  year : Int
  month : Nat
  day : Nat
  hour : Nat
  minute : Nat
  second : Nat
  nano : Nat
  month_range : 1 ≤ month ∧ month ≤ 12
  day_range : 1 ≤ day ∧ day ≤ daysInMonth year month
  hour_lt : hour < 24
  minute_lt : minute < 60
  second_lt : second < 60
  nano_lt : nano < 1000000000
  deriving DecidableEq

namespace Civil

def dayNumber (c : Civil) : Int := daysBeforeYear c.year + daysBeforeMonth c.year c.month + c.day

def nanos (c : Civil) : Int :=
  (((c.dayNumber * 24 + c.hour) * 60 + c.minute) * 60 + c.second) * 1000000000 + c.nano

/-- The fields below the year, without the nanoseconds. -/
def clock (c : Civil) : List Nat := [c.month, c.day, c.hour, c.minute, c.second]

/-- The beginning of year 1, the zero value of Go's `time.Time`. -/
def isZero (c : Civil) : Bool := c.year == 1 && c.clock == [1, 1, 0, 0, 0] && c.nano == 0

variable {a b : Civil}

theorem dayOfYear_le (c : Civil) : daysBeforeMonth c.year c.month + c.day ≤ daysBeforeMonth c.year 13 :=
  (Nat.add_le_add_left c.day_range.2 _).trans
    (daysBeforeMonth_le (Nat.lt_succ_of_le c.month_range.2))

theorem dayNumber_lt_of_year (h : a.year < b.year) : a.dayNumber < b.dayNumber := by
  have hy := daysBeforeYear_le h
  have hd := a.dayOfYear_le
  have hpos := b.day_range.1
  simp only [dayNumber]
  omega

theorem dayNumber_lt_of_month (hy : a.year = b.year) (h : a.month < b.month) : a.dayNumber < b.dayNumber := by
  have hm : daysBeforeMonth a.year a.month + daysInMonth a.year a.month ≤ daysBeforeMonth a.year b.month :=
    daysBeforeMonth_le h
  have hd := a.day_range.2
  have hpos := b.day_range.1
  simp only [dayNumber, ← hy]
  omega

theorem dayNumber_of_month (hy : a.year = b.year) (hm : a.month = b.month) :
    a.dayNumber - a.day = b.dayNumber - b.day := by
  simp only [dayNumber, ← hy, ← hm]
  omega

/-- **In one year the count orders instants as the clock and then the nanoseconds do.** -/
theorem nanos_lt_iff_of_year (hy : a.year = b.year) :
    a.nanos < b.nanos ↔ a.clock < b.clock ∨ a.clock = b.clock ∧ a.nano < b.nano := by
  have ha := a.hour_lt; have hb := b.hour_lt
  have ha' := a.minute_lt; have hb' := b.minute_lt
  have ha'' := a.second_lt; have hb'' := b.second_lt
  have hna := a.nano_lt; have hnb := b.nano_lt
  simp only [clock, List.cons_lt_cons_iff, List.cons.injEq, List.lt_irrefl, and_true, and_false, or_false]
  obtain hm | hm | hm := lt_trichotomy a.month b.month
  · have hd := dayNumber_lt_of_month hy hm
    simp only [nanos]
    omega
  · have hd := dayNumber_of_month hy hm
    simp only [nanos]
    omega
  · have hd := dayNumber_lt_of_month hy.symm hm
    simp only [nanos]
    omega

theorem nanos_lt_of_year (h : a.year < b.year) : a.nanos < b.nanos := by
  have hd := dayNumber_lt_of_year h
  have ha := a.hour_lt
  have ha' := a.minute_lt
  have ha'' := a.second_lt
  have hna := a.nano_lt
  simp only [nanos]
  omega

end Civil

end AeroVault.Lib
