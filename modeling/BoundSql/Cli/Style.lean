/-!
# Styled output

Text for a terminal: a `Style` is a colour, in bold or dimmed letters or neither. `Style.paint`
puts text between the codes that switch the style on and off, and leaves it alone where there are
no colours.
-/

namespace BoundSql.Cli

/-- The colours in use. -/
inductive Colour
  | red
  | green
  | yellow
  | cyan
  | white
  deriving DecidableEq, Repr

/-- The number of a colour in a code. -/
def Colour.code : Colour → String
  | red => "31"
  | green => "32"
  | yellow => "33"
  | cyan => "36"
  | white => "37"

/-- A way to show text. -/
structure Style where
  bold : Bool := false
  dimmed : Bool := false
  colour : Option Colour := none
  deriving DecidableEq, Repr

namespace Style

/-- Text in a colour. -/
def ofColour (c : Colour) : Style where
  colour := some c

/-- Bold text in a colour. -/
def boldOf (c : Colour) : Style where
  bold := true
  colour := some c

/-- Dimmed text. -/
def dim : Style where
  dimmed := true

/-- The code that switches a style on. -/
def start (s : Style) : String :=
  "\x1b[" ++ ";".intercalate ((if s.bold then ["1"] else []) ++ (if s.dimmed then ["2"] else []) ++
    (s.colour.map Colour.code).toList) ++ "m"

/-- The code that switches every style off. -/
def reset : List Char :=
  ['\x1b', '[', '0', 'm']

/-- The text with the style switched on again behind every code in it that switches styles off. -/
def resume (start : List Char) : List Char → List Char
  | '\x1b' :: '[' :: '0' :: 'm' :: s => reset ++ start ++ resume start s
  | c :: s => c :: resume start s
  | [] => []

/-- The text in a style, where there are colours. -/
def paint (coloured : Bool) (s : Style) (text : String) : String :=
  if coloured then
    s.start ++ String.ofList (resume s.start.toList text.toList) ++ String.ofList reset
  else text

end Style

/-- The text with blanks behind it up to a width. -/
def padRight (width : Nat) (text : String) : String :=
  text ++ String.ofList (List.replicate (width - text.length) ' ')

end BoundSql.Cli
