/-!
# Blank characters

Two notions of a blank are in use. `isBlank` is the Unicode property White_Space, which ends a run
of SQL code and is trimmed from text that is echoed. `isPlainBlank` holds of the four blanks that
separate lexemes of SQL and of JSON: space, tab, carriage return and line feed.

`isBlank_of_isPlainBlank` says that the first notion contains the second.
-/

namespace BoundSql.Text

/-- The ranges of code points with the Unicode property White_Space, bounds included. -/
def blankRanges : List (Nat × Nat) :=
  [(0x09, 0x0D), (0x20, 0x20), (0x85, 0x85), (0xA0, 0xA0), (0x1680, 0x1680), (0x2000, 0x200A),
    (0x2028, 0x2029), (0x202F, 0x202F), (0x205F, 0x205F), (0x3000, 0x3000)]

/-- Whether a character has the Unicode property White_Space. -/
def isBlank (c : Char) : Bool :=
  blankRanges.any fun r => r.1 ≤ c.toNat && c.toNat ≤ r.2

/-- Whether a character is a space, a tab, a carriage return or a line feed. -/
def isPlainBlank (c : Char) : Bool :=
  c = ' ' || c = '\t' || c = '\r' || c = '\n'

theorem isBlank_of_isPlainBlank {c : Char} (h : isPlainBlank c = true) : isBlank c = true := by
  simp only [isPlainBlank, Bool.or_eq_true, decide_eq_true_eq] at h
  rcases h with ((rfl | rfl) | rfl) | rfl <;> decide

/-- The text without the blanks at either end. -/
def trim (s : String) : String :=
  String.ofList ((s.toList.dropWhile isBlank).reverse.dropWhile isBlank).reverse

end BoundSql.Text
