import BoundSql.Double.Basic
import BoundSql.Text.Decimal

/-!
# The double nearest to a decimal

A decimal number `m · 10 ^ e` is read as the nearest double, and as the one with an even fraction
when two are equally near. All arithmetic is on natural numbers: the number is a quotient, counted
in units of the least positive double, and the quotient is rounded at the place where a double of
its size has its last bit.
-/

namespace BoundSql

/-- The natural number nearest to `n / d`, the even one of two that are equally near. -/
def roundQuotient (n d : Nat) : Nat :=
  let q := n / d
  let r := n % d
  if 2 * r < d then q
  else if d < 2 * r then q + 1
  else if q % 2 = 0 then q else q + 1

namespace Double

/-- The bits, sign apart, of the double nearest to `n / d`. Numbers too large for a double have
bits beyond those of the largest one. -/
def nearestBits (n d : Nat) : Nat :=
  let units := n * Nat.pow 2 1074
  let scale := (units / d).log2 - 52
  scale * Nat.pow 2 52 + roundQuotient units (d * Nat.pow 2 scale)

/-- The bits of infinity, which are the least that no finite number has. -/
def infinityBits : Nat :=
  2047 * Nat.pow 2 52

/-- The double of a sign and of the bits that belong to an absolute value. -/
def ofSign (negative : Bool) (bits : Nat) : Double where
  bits := UInt64.ofNat (if negative then Nat.pow 2 63 + bits else bits)

/-- The double nearest to `± m · 10 ^ e`, unless that is infinite. A number with so many digits
before its point that it must be infinite, or with so many zeros behind it that it must be zero,
is told by its length. -/
def ofDecimal? (negative : Bool) (m : Nat) (e : Int) : Option Double :=
  let size : Int := (Text.digits m).length + e
  if m = 0 ∨ size < -330 then some (ofSign negative 0)
  else if 310 < size then none
  else
    let bits := nearestBits (m * Nat.pow 10 e.toNat) (Nat.pow 10 (-e).toNat)
    if bits < infinityBits then some (ofSign negative bits) else none

end Double

end BoundSql
