import BoundSql.Double.Layout
import BoundSql.Fragment.Basic

/-!
# Writing JSON text

Bindings and fragments as JSON text. `Binding.json` is compact; `Fragment.json` sets every entry
and every binding on a line of its own.

In a text the quote, the backslash and the control characters are escaped, and nothing else. A
number is the shortest decimal that is read back as it, with an exponent when it is very large or
very small, and never looks like an integer. There is no JSON for numbers that are not finite; they
are written as null.
-/

namespace BoundSql

namespace Json

/-- A character as it is written inside a text. -/
def escape (c : Char) : List Char :=
  if c = '"' then ['\\', '"']
  else if c = '\\' then ['\\', '\\']
  else if c = '\x08' then ['\\', 'b']
  else if c = '\x0c' then ['\\', 'f']
  else if c = '\n' then ['\\', 'n']
  else if c = '\r' then ['\\', 'r']
  else if c = '\t' then ['\\', 't']
  else if c.toNat < 0x20 then
    ['\\', 'u', '0', '0', Nat.digitChar (c.toNat / 16), Nat.digitChar (c.toNat % 16)]
  else [c]

/-- A text between quotes. -/
def quote (s : String) : String :=
  String.ofList ('"' :: s.toList.flatMap escape ++ ['"'])

/-- The layout of numbers: positional from `10 ^ (-5)` and below `10 ^ 16`, a whole number with a
zero behind its point, and of two equally near decimals the one with an even last digit. -/
def numberLayout : Layout where
  tie := .even
  isPositional e := -5 ≤ e && e < 16
  keepsPoint := true

/-- A number, or null when it is not finite. -/
def number (x : Double) : String :=
  if x.isFinite then x.text numberLayout else "null"

end Json

/-- A binding as compact JSON text. -/
def Binding.json : Binding → String
  | null => "null"
  | bool b => if b then "true" else "false"
  | integer n => Text.integer n.toInt
  | real x => Json.number x
  | text s => Json.quote s
  | blob content => "[" ++ ",".intercalate (content.map fun b => Text.natural b.toNat) ++ "]"

/-- A list of bindings over several lines, or a pair of brackets when there are none. -/
def Json.bindingLines (bs : List Binding) : String :=
  if bs.isEmpty then "[]"
  else "[\n    " ++ ",\n    ".intercalate (bs.map Binding.json) ++ "\n  ]"

/-- A fragment as JSON text over several lines: its text and its bindings. -/
def Fragment.json (f : Fragment) : String :=
  "\x7b\n  \"text\": " ++ Json.quote f.text ++
    ",\n  \"values\": " ++ Json.bindingLines f.bindings ++ "\n\x7d"

end BoundSql
