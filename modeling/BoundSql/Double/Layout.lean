import BoundSql.Double.Shortest

/-!
# Writing doubles

A `Layout` says how the shortest decimal of a double is laid out: where positional notation ends
and scientific notation begins, and whether a whole number keeps a zero behind its point.
-/

namespace BoundSql

/-- How a decimal is laid out. -/
structure Layout where
  /-- Which of two equally near decimals is written. -/
  tie : Tie
  /-- Whether a number with this exponent is written without an exponent. -/
  isPositional : Int → Bool
  /-- Whether a whole number in positional notation ends in `.0`. -/
  keepsPoint : Bool

namespace Scientific

/-- A decimal in positional notation. -/
def positional (d : Scientific) (keepsPoint : Bool) : List Char :=
  if d.exponent < 0 then
    '0' :: '.' :: List.replicate (d.exponent.natAbs - 1) '0' ++ d.digits
  else
    let places := d.exponent.toNat + 1
    let whole := d.digits.take places ++ List.replicate (places - d.digits.length) '0'
    match d.digits.drop places with
    | [] => if keepsPoint then whole ++ ['.', '0'] else whole
    | fraction => whole ++ '.' :: fraction

/-- A decimal in scientific notation: the point is left out behind a single digit, and the exponent
always has a sign. -/
def exponential (d : Scientific) : List Char :=
  d.digits.take 1 ++ (if d.digits.length ≤ 1 then [] else '.' :: d.digits.drop 1) ++
    'e' :: (if d.exponent < 0 then '-' else '+') :: Text.digits d.exponent.natAbs

/-- A decimal in the notation that a layout has for it. -/
def text (d : Scientific) (layout : Layout) : List Char :=
  if layout.isPositional d.exponent then d.positional layout.keepsPoint else d.exponential

end Scientific

/-- The text of a finite double in a layout. Zero keeps its sign. -/
def Double.text (x : Double) (layout : Layout) : String :=
  let sign := if x.negative then ['-'] else []
  let size :=
    if x.magnitude = 0 then if layout.keepsPoint then ['0', '.', '0'] else ['0']
    else (x.shortest layout.tie).text layout
  String.ofList (sign ++ size)

end BoundSql
