import BoundSql.Error
import BoundSql.Limits.Basic
import BoundSql.Text.Decimal

/-!
# Limits documents

A limits document sets limits, one in each line: a key, an equals sign and a number, as in
`max_operators = 50`. Blank lines and comments, which begin with `#`, mean nothing. Limits that a
document does not set stay as they are by default. `Limits.ofDocument` reads a document.

The lines are those of TOML. That format has a good deal more to it, but a limit is a whole number
under a plain key, and anything that would give the document another shape is refused.

* A key can be bare or between quotes of either kind; double quotes allow escapes by number.
* A number can be decimal with a sign, or hexadecimal, octal or binary without one; an underscore
  may stand between digits. It must fit the signed range of 64 bits and must not be negative.
-/

namespace BoundSql

namespace Limits

/-- Whether a character separates the parts of a line. -/
def isSpace (c : Char) : Bool :=
  c = ' ' || c = '\t'

/-- Whether a comment can hold a character: any but the control characters, the tab apart. -/
def isCommentChar (c : Char) : Bool :=
  c = '\t' || (0x20 ≤ c.toNat && c.toNat ≠ 0x7F)

/-- Whether nothing but a comment is left of a line. -/
def isIdle (s : List Char) : Bool :=
  match s.dropWhile isSpace with
  | [] => true
  | c :: t => c = '#' && t.all isCommentChar

/-! ## Keys -/

/-- Whether a key without quotes can hold a character. -/
def isBareKeyChar (c : Char) : Bool :=
  c.isAlphanum || c = '_' || c = '-'

/-- The character with a hexadecimal number, if the number is one of a character. -/
def numbered? (ds : List Char) : Option Char :=
  let n := Text.value 16 ds
  if (ds.all fun d => (Text.digitValue? d).any (· < 16)) ∧ n.isValidChar then some (Char.ofNat n)
  else none

/-- A key through its closing double quote, and the rest. Of the escapes only those by number can
stand for a character of a limit's key. -/
def readQuotedKey : List Char → Option (List Char × List Char)
  | [] => none
  | '"' :: s => some ([], s)
  | '\\' :: 'u' :: a :: b :: c :: d :: s => do
    let e ← numbered? [a, b, c, d]
    let (key, rest) ← readQuotedKey s
    pure (e :: key, rest)
  | '\\' :: 'U' :: a :: b :: c :: d :: e :: f :: g :: h :: s => do
    let i ← numbered? [a, b, c, d, e, f, g, h]
    let (key, rest) ← readQuotedKey s
    pure (i :: key, rest)
  | c :: s =>
    if c = '\\' then none else (readQuotedKey s).map fun (key, rest) => (c :: key, rest)

/-- The key at the head of a line, and the rest. -/
def readKey : List Char → Option (List Char × List Char)
  | '"' :: s => readQuotedKey s
  | '\'' :: s =>
    match s.dropWhile (· ≠ '\'') with
    | [] => none
    | _ :: rest => some (s.takeWhile (· ≠ '\''), rest)
  | s => some (s.takeWhile isBareKeyChar, s.dropWhile isBareKeyChar)

/-! ## Numbers -/

/-- The digits of a number without the underscores, each of which must stand between two
digits. -/
def withoutUnderscores? : List Char → Option (List Char)
  | [] => none
  | [d] => if d = '_' then none else some [d]
  | d :: '_' :: ds => if d = '_' then none else (withoutUnderscores? ds).map (d :: ·)
  | d :: ds => if d = '_' then none else (withoutUnderscores? ds).map (d :: ·)

/-- The number that a word writes in a base, underscores allowed. -/
def numberInBase? (base : Nat) (word : List Char) : Option Nat :=
  match withoutUnderscores? word with
  | none => none
  | some ds =>
    if ds.all fun d => (Text.digitValue? d).any (· < base) then some (Text.value base ds) else none

/-- The number that a word writes in decimal: no zero stands before another digit. -/
def decimal? (word : List Char) : Option Nat :=
  match word with
  | '0' :: _ :: _ => none
  | _ => numberInBase? 10 word

/-- The number that a word writes, unless it is negative or too large. -/
def number? (word : List Char) : Option Nat :=
  (unlimited? word).filter (· < Nat.pow 2 63)
where
  /-- The number that a word writes, however large. Of the negative ones zero alone is allowed. -/
  unlimited? : List Char → Option Nat
    | '0' :: 'x' :: ds => numberInBase? 16 ds
    | '0' :: 'o' :: ds => numberInBase? 8 ds
    | '0' :: 'b' :: ds => numberInBase? 2 ds
    | '+' :: ds => decimal? ds
    | '-' :: ds => (decimal? ds).filter (· = 0)
    | ds => decimal? ds

/-! ## Lines -/

/-- What a line that is not idle sets: a limit and its number. -/
def setting? (line : List Char) : Option (Limit × Nat) := do
  let (key, s) ← readKey (line.dropWhile isSpace)
  let l ← Limit.ofKey? (String.ofList key)
  match s.dropWhile isSpace with
  | '=' :: s =>
    let s := s.dropWhile isSpace
    let n ← number? (s.takeWhile fun c => !isSpace c && c ≠ '#')
    if isIdle (s.dropWhile fun c => !isSpace c && c ≠ '#') then some (l, n) else none
  | _ => none

/-- The lines of a text. A line feed ends a line, and a carriage return right before it belongs to
the end. -/
def linesOf : List Char → List (List Char)
  | [] => [[]]
  | '\n' :: s => [] :: linesOf s
  | '\x0d' :: '\n' :: s => [] :: linesOf s
  | c :: s =>
    match linesOf s with
    | [] => [[c]]
    | line :: lines => (c :: line) :: lines

/-- Set limits line by line, the next line having this number. A limit is set at most once. -/
def setAll (limits : Limits) (done : List Limit) (lineNumber : Nat) :
    List (List Char) → Except Error Limits
  | [] => .ok limits
  | line :: lines =>
    if isIdle line then setAll limits done (lineNumber + 1) lines
    else
      match setting? line with
      | none => .error (.badLimits lineNumber)
      | some (l, n) =>
        if l ∈ done then .error (.badLimits lineNumber)
        else setAll (limits.set l n) (l :: done) (lineNumber + 1) lines

/-- The limits that a document sets. A byte order mark at its beginning is passed over. -/
def ofDocument (text : String) : Except Error Limits :=
  let s := match text.toList with
    | '\uFEFF' :: s => s
    | s => s
  setAll {} [] 1 (linesOf s)

end Limits

end BoundSql
