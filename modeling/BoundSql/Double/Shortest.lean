import BoundSql.Double.Basic
import BoundSql.Text.Decimal

/-!
# The shortest decimal of a double

Among the decimal numbers that are read back as a given double, the shortest one has the fewest
digits, and of several with so few it is the nearest to the double. `Double.shortest` finds it: for
one digit, two digits and so on it looks at the two neighbours of the number on the grid of
decimals with that many digits, and takes the first grid on which a neighbour is read back.

What is read back as a double is an interval of numbers around it. Its ends lie half way to the
doubles next to it, and belong to it when the fraction is even. All numbers here are natural, in
units of a quarter of the least positive double.
-/

namespace BoundSql

/-- Which of two decimals is taken when both are equally near. -/
inductive Tie
  /-- The greater one. -/
  | up
  /-- The one whose last digit is even. -/
  | even
  deriving DecidableEq, Repr

/-- A positive decimal number in scientific notation: a point stands behind the first digit, and
the whole is multiplied by a power of ten. -/
structure Scientific where
  digits : List Char
  exponent : Int
  deriving DecidableEq, Repr

namespace Double

/-- The quarters of the least positive double that make one. -/
def unitQuarters : Nat :=
  Nat.pow 2 1076

/-- The numbers that are read back as a positive double, in quarters of the least one. -/
structure Interval where
  low : Nat
  value : Nat
  high : Nat
  /-- Whether the ends belong to the interval. -/
  closed : Bool
  deriving DecidableEq, Repr

/-- The interval of a finite double. The double before a power of two is at half the distance. -/
def interval (x : Double) : Interval :=
  let gap := Nat.pow 2 (max x.exponent 1)
  let value := 4 * x.magnitude
  { low := value - (if x.fraction = 0 ∧ 1 < x.exponent then gap / 2 else gap)
    value
    high := value + gap
    closed := x.fraction % 2 = 0 }

/-- The exponent of the first digit of a positive number. -/
def leadingExponent (value : Nat) : Int :=
  if unitQuarters ≤ value then (Text.digits (value / unitQuarters)).length - 1
  else -(Text.digits ((unitQuarters - 1) / value)).length

/-- The decimal `k · 10 ^ e` as a numerator and a denominator, in quarters of the least double:
the numerator of one step of the grid, and the denominator. -/
def gridStep (e : Int) : Nat × Nat :=
  (Nat.pow 10 e.toNat * unitQuarters, Nat.pow 10 (-e).toNat)

/-- Whether `k` steps of a grid lie in an interval. -/
def Interval.contains (i : Interval) (step : Nat × Nat) (k : Nat) : Bool :=
  if i.closed then i.low * step.2 ≤ k * step.1 && k * step.1 ≤ i.high * step.2
  else i.low * step.2 < k * step.1 && k * step.1 < i.high * step.2

/-- The neighbour of a number on a grid that is read back, and the nearer one if both are. -/
def Interval.neighbour? (i : Interval) (tie : Tie) (step : Nat × Nat) : Option Nat :=
  let k := i.value * step.2 / step.1
  let below := i.value * step.2 - k * step.1
  let above := (k + 1) * step.1 - i.value * step.2
  match i.contains step k, i.contains step (k + 1) with
  | false, false => none
  | true, false => some k
  | false, true => some (k + 1)
  | true, true =>
    if below < above then some k
    else if above < below then some (k + 1)
    else
      match tie with
      | .up => some (k + 1)
      | .even => some (if k % 2 = 0 then k else k + 1)

/-- The decimal `k · 10 ^ e` in scientific notation, without zeros at its end. -/
def scientific (k : Nat) (e : Int) : Scientific :=
  let ds := Text.digits k
  { digits := (ds.reverse.dropWhile (· = '0')).reverse
    exponent := e + ds.length - 1 }

/-- The decimal on the first grid with a neighbour that is read back, looking at `grids` more grids
from the one whose step is `10 ^ e`. The last grid is fine enough in any case. -/
def Interval.search (i : Interval) (tie : Tie) (e : Int) : Nat → Scientific
  | 0 => scientific (i.value * (gridStep e).2 / (gridStep e).1) e
  | grids + 1 =>
    match i.neighbour? tie (gridStep e) with
    | some k => scientific k e
    | none => i.search tie (e - 1) grids

/-- The shortest decimal of a finite double that is not zero, its sign apart. Seventeen digits
are always enough. -/
def shortest (tie : Tie) (x : Double) : Scientific :=
  let i := x.interval
  i.search tie (leadingExponent i.value) 17

end Double

end BoundSql
