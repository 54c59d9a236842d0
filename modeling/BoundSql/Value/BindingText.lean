import BoundSql.Double.Layout
import BoundSql.Value.Binding

/-!
# Showing bindings

`Binding.displayText` shows a binding to a person: text between single quotes, a blob by its size,
and a number by the shortest decimal that is read back as it, always without an exponent.
-/

namespace BoundSql

/-- The layout of numbers that are shown: never an exponent, no point behind a whole number, and
of two equally near decimals the greater. -/
def displayLayout : Layout where
  tie := .up
  isPositional _ := true
  keepsPoint := false

/-- A number as it is shown. -/
def Double.displayText (x : Double) : String :=
  match x.nonFinite? with
  | some f => f.name
  | none => x.text displayLayout

namespace Binding

/-- A binding as it is shown. -/
def displayText : Binding → String
  | null => "NULL"
  | bool b => if b then "true" else "false"
  | integer n => Text.integer n.toInt
  | real x => x.displayText
  | text s => "'" ++ s ++ "'"
  | blob content => "<" ++ Text.natural content.length ++ " bytes>"

end Binding

end BoundSql
