import BoundSql.Calendar.Date
import BoundSql.Text.Decimal

/-!
# Dates with a time of day

A `DateTime` is a date and a time of day, without a time zone. A second can be a leap second: it
is then written as the second before it whose nanoseconds have run past a thousand million.

`atOffset` reads a local time at an offset from universal time, and `text` is the form in which a
date is bound: `2024-03-09 07:05:00`, the fraction of the second dropped.
-/

namespace BoundSql

/-- A date and a time of day. The nanoseconds of a leap second are at least `10 ^ 9`. -/
structure DateTime where
  date : Date
  hour : Nat
  minute : Nat
  second : Nat
  nanosecond : Nat
  deriving DecidableEq, Repr

namespace DateTime

/-- The number of seconds since midnight. -/
def secondOfDay (t : DateTime) : Nat :=
  t.hour * 3600 + t.minute * 60 + t.second

/-- The time `s` seconds after midnight of a date. -/
def ofSecondOfDay (d : Date) (s nanosecond : Nat) : DateTime where
  date := d
  hour := s / 3600
  minute := s / 60 % 60
  second := s % 60
  nanosecond := nanosecond

/-- The universal time of a local time that is ahead of it by `offset` seconds. Days are carried
over; the fraction of the second stays, that of a leap second as well. -/
def atOffset (offset : Int) (t : DateTime) : DateTime :=
  let s : Int := t.secondOfDay - offset
  ofSecondOfDay (t.date.addDays (s / 86400)) (s % 86400).toNat t.nanosecond

/-- A year with at least four digits. Before the year zero a minus sign precedes them and after
the year 9999 a plus sign. -/
def yearText (y : Int) : List Char :=
  if y < 0 then '-' :: Text.padded 4 y.natAbs
  else if y ≤ 9999 then Text.padded 4 y.natAbs
  else '+' :: Text.padded 4 y.natAbs

/-- The date part of the text: year, month and day. -/
def dateText (t : DateTime) : List Char :=
  yearText t.date.year ++ '-' :: Text.padded 2 t.date.month ++ '-' :: Text.padded 2 t.date.day

/-- The time part of the text. A leap second shows as second sixty. -/
def timeText (t : DateTime) : List Char :=
  Text.padded 2 t.hour ++ ':' :: Text.padded 2 t.minute ++
    ':' :: Text.padded 2 (t.second + t.nanosecond / Nat.pow 10 9)

/-- The text that is bound for a date: `YYYY-MM-DD HH:MM:SS`. -/
def text (t : DateTime) : String :=
  String.ofList (t.dateText ++ ' ' :: t.timeText)

/-- The full text of a date, to the nanosecond: `YYYY-MM-DDTHH:MM:SS.nnnnnnnnn`. -/
def isoText (t : DateTime) : String :=
  String.ofList (t.dateText ++ 'T' :: t.timeText ++
    '.' :: Text.padded 9 (t.nanosecond % Nat.pow 10 9))

end DateTime

end BoundSql
