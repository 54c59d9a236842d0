/-!
# Double precision numbers

A `Double` is the 64 bits of a number in the binary64 format: a sign bit, eleven bits of exponent
and fifty-two of fraction. Keeping the bits tells all numbers apart, the signs of zero and the
payloads of the not-a-numbers included.

The size of a finite number is a natural number, `magnitude`, counted in units of the least
positive double, `2 ^ (-1074)`; every finite double is a whole number of such units, so reading and
writing numbers needs no arithmetic but that of the naturals.
-/

namespace BoundSql

/-- A number of the binary64 format, given by its bits. -/
structure Double where
  bits : UInt64
  deriving DecidableEq, Repr

/-- What a double can be that is not finite. -/
inductive NonFinite
  | nan
  | posInf
  | negInf
  deriving DecidableEq, Repr

/-- The name under which a non-finite number is shown. -/
def NonFinite.name : NonFinite → String
  | nan => "NaN"
  | posInf => "inf"
  | negInf => "-inf"

namespace Double

/-- Whether the sign bit is set. -/
def negative (x : Double) : Bool :=
  Nat.pow 2 63 ≤ x.bits.toNat

/-- The eleven bits of the exponent. -/
def exponent (x : Double) : Nat :=
  x.bits.toNat / Nat.pow 2 52 % Nat.pow 2 11

/-- The fifty-two bits of the fraction. -/
def fraction (x : Double) : Nat :=
  x.bits.toNat % Nat.pow 2 52

/-- How a double fails to be finite, if it does: the exponent bits are all set. -/
def nonFinite? (x : Double) : Option NonFinite :=
  if x.exponent < 2047 then none
  else if x.fraction ≠ 0 then some .nan
  else if x.negative then some .negInf else some .posInf

/-- Whether the number is neither infinite nor a not-a-number. -/
def isFinite (x : Double) : Bool :=
  x.exponent < 2047

/-- The absolute value of a finite number, in units of `2 ^ (-1074)`. -/
def magnitude (x : Double) : Nat :=
  if x.exponent = 0 then x.fraction else (Nat.pow 2 52 + x.fraction) * Nat.pow 2 (x.exponent - 1)

/-- Equality of numbers: the two zeros are equal, and a not-a-number equals nothing. -/
def equal (x y : Double) : Bool :=
  if x.nonFinite? = some .nan ∨ y.nonFinite? = some .nan then false
  else x.bits = y.bits || (x.bits.toNat % Nat.pow 2 63 = 0 && y.bits.toNat % Nat.pow 2 63 = 0)

theorem isFinite_iff_nonFinite?_eq_none {x : Double} :
    x.isFinite = true ↔ x.nonFinite? = none := by
  simp only [isFinite, nonFinite?, decide_eq_true_eq]
  by_cases h : x.exponent < 2047
  · simp [h]
  · simp only [h, if_false, false_iff]
    split
    · simp
    · split <;> simp

end Double

end BoundSql
