/-!
# Decimal digits

Numbers as decimal digits and digits as numbers. `digits n` is the shortest writing of a natural
number, `integer` puts a sign before it, `padded` fills it with zeros up to a width, and `value`
reads a list of digits in any base.
-/

namespace BoundSql.Text

/-- The decimal digits of `n`, most significant first and without leading zeros. -/
def digits (n : Nat) : List Char :=
  Nat.toDigits 10 n

/-- The decimal text of a natural number. -/
def natural (n : Nat) : String :=
  String.ofList (digits n)

/-- The decimal text of an integer, with a minus sign when it is negative. -/
def integer (n : Int) : String :=
  if n < 0 then "-" ++ natural n.natAbs else natural n.natAbs

/-- The digits of `n`, with zeros in front up to `width` characters. -/
def padded (width n : Nat) : List Char :=
  List.replicate (width - (digits n).length) '0' ++ digits n

/-- What a character is worth as a digit, letters in either case following nine. -/
def digitValue? (c : Char) : Option Nat :=
  if c.isDigit then some (c.toNat - 48)
  else if 'a' ≤ c ∧ c ≤ 'z' then some (c.toNat - 87)
  else if 'A' ≤ c ∧ c ≤ 'Z' then some (c.toNat - 55)
  else none

/-- The number that a list of digits writes in a base. A character that is no digit counts as
zero. -/
def value (base : Nat) (ds : List Char) : Nat :=
  ds.foldl (fun n c => base * n + (digitValue? c).getD 0) 0

end BoundSql.Text
