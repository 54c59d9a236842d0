/-!
# Days of the calendar

A `Date` is a day of the Gregorian calendar, carried on before its introduction and with a year
zero. Dates are moved a day at a time: `next` and `previous` know where months and years end, and
`addDays` repeats them.
-/

namespace BoundSql

/-- A day of the calendar. Months and days count from one. -/
structure Date where
  year : Int
  month : Nat
  day : Nat
  deriving DecidableEq, Repr

namespace Date

/-- Every fourth year is a leap year; of the years that end a century, every fourth. -/
def isLeap (year : Int) : Bool :=
  year % 4 = 0 && (year % 100 ≠ 0 || year % 400 = 0)

/-- The number of days of a month. -/
def daysInMonth (year : Int) (month : Nat) : Nat :=
  if month = 2 then if isLeap year then 29 else 28
  else if month = 4 ∨ month = 6 ∨ month = 9 ∨ month = 11 then 30
  else 31

/-- A date of the calendar proper: the month is one of twelve and has the day. -/
def Valid (d : Date) : Prop :=
  1 ≤ d.month ∧ d.month ≤ 12 ∧ 1 ≤ d.day ∧ d.day ≤ daysInMonth d.year d.month

instance (d : Date) : Decidable d.Valid :=
  inferInstanceAs (Decidable (_ ∧ _))

/-- The following day. -/
def next (d : Date) : Date :=
  if d.day < daysInMonth d.year d.month then { d with day := d.day + 1 }
  else if d.month < 12 then { d with month := d.month + 1, day := 1 }
  else { year := d.year + 1, month := 1, day := 1 }

/-- The preceding day. -/
def previous (d : Date) : Date :=
  if 1 < d.day then { d with day := d.day - 1 }
  else if 1 < d.month then
    { d with month := d.month - 1, day := daysInMonth d.year (d.month - 1) }
  else { year := d.year - 1, month := 12, day := 31 }

/-- The day that lies `n` days later, or earlier when `n` is negative. -/
def addDays (d : Date) : Int → Date
  | .ofNat n => Nat.repeat next n d
  | .negSucc n => Nat.repeat previous (n + 1) d

example : addDays ⟨2024, 2, 28⟩ 2 = ⟨2024, 3, 1⟩ := by decide

example : addDays ⟨1900, 3, 1⟩ (-1) = ⟨1900, 2, 28⟩ := by decide

end Date

end BoundSql
