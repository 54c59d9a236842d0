import BoundSql.Double.Nearest
import BoundSql.Text.Blank
import BoundSql.Value.Basic

/-!
# Tokens of JSON text

JSON text is cut into tokens: brackets, commas and colons, texts, and the scalars that are written
without quotes. Blanks between tokens mean nothing. `Json.tokens` cuts up a whole text.

A number without a fraction and an exponent is an integer, and stays exact as far as 64 bits go;
every other number becomes the nearest double. Numbers too large for a double are refused, and so
is text with an escape that denotes half of a surrogate pair.
-/

namespace BoundSql.Json

/-- Why a text is not JSON. -/
inductive Fault
  /-- The text ends too early. -/
  | ended
  /-- No token begins with the character. -/
  | unexpected (c : Char)
  /-- A word is neither a number nor one of the three names. -/
  | badWord (word : String)
  /-- A control character stands in a text. -/
  | control (c : Char)
  /-- A backslash is followed by no escape. -/
  | badEscape
  /-- An escape denotes half of a surrogate pair, and the other half does not follow. -/
  | loneSurrogate
  /-- A number is too large. -/
  | numberTooLarge
  /-- Arrays and objects stand too deep inside one another. -/
  | tooDeep
  /-- A token stands where it cannot. -/
  | misplaced
  deriving DecidableEq, Repr

/-- The wording of a fault. -/
def Fault.message : Fault → String
  | ended => "the text ends too early"
  | unexpected c => "unexpected character '" ++ String.singleton c ++ "'"
  | badWord word => "unknown word '" ++ word ++ "'"
  | control _ => "control character in a text"
  | badEscape => "unknown escape"
  | loneSurrogate => "half of a surrogate pair"
  | numberTooLarge => "number out of range"
  | tooDeep => "too many arrays and objects inside one another"
  | misplaced => "a part of the text is out of place"

/-- A token of JSON text. -/
inductive Token
  | openArray
  | closeArray
  | openObject
  | closeObject
  | comma
  | colon
  | text (s : String)
  /-- A null, a truth value or a number. -/
  | scalar (v : Value)
  deriving Repr

/-! ## Texts -/

/-- The number of four hexadecimal digits, and the rest. -/
def hexUnit? : List Char → Option (Nat × List Char)
  | a :: b :: c :: d :: s =>
    if [a, b, c, d].all fun x => (digitOf x).isSome then some (Text.value 16 [a, b, c, d], s)
    else none
  | _ => none
where
  /-- The value of a hexadecimal digit. -/
  digitOf (c : Char) : Option Nat := (Text.digitValue? c).filter (· < 16)

/-- The character that a letter denotes behind a backslash. -/
def escaped? : Char → Option Char
  | '"' => some '"'
  | '\\' => some '\\'
  | '/' => some '/'
  | 'b' => some '\x08'
  | 'f' => some '\x0c'
  | 'n' => some '\n'
  | 'r' => some '\r'
  | 't' => some '\t'
  | _ => none

/-- The character of a surrogate pair whose first half was read, and the rest. -/
def readLowHalf (high : Nat) : List Char → Except Fault (Char × List Char)
  | '\\' :: 'u' :: s =>
    match hexUnit? s with
    | none => .error .badEscape
    | some (low, rest) =>
      if 0xDC00 ≤ low ∧ low ≤ 0xDFFF then
        .ok (Char.ofNat (0x10000 + (high - 0xD800) * 0x400 + (low - 0xDC00)), rest)
      else .error .loneSurrogate
  | _ => .error .loneSurrogate

/-- The character that an escape denotes, and the rest; the backslash was passed. -/
def unescape : List Char → Except Fault (Char × List Char)
  | [] => .error .ended
  | c :: s =>
    if c = 'u' then
      match hexUnit? s with
      | none => .error .badEscape
      | some (unit, rest) =>
        if 0xD800 ≤ unit ∧ unit ≤ 0xDFFF then
          if unit < 0xDC00 then readLowHalf unit rest else .error .loneSurrogate
        else .ok (Char.ofNat unit, rest)
    else
      match escaped? c with
      | none => .error .badEscape
      | some d => .ok (d, s)

theorem length_hexUnit? {s rest : List Char} {n : Nat} (h : hexUnit? s = some (n, rest)) :
    rest.length ≤ s.length := by
  unfold hexUnit? at h
  split at h
  · split at h
    · cases h
      simp only [List.length_cons]
      omega
    · cases h
  · cases h

theorem length_readLowHalf {s rest : List Char} {c : Char} {high : Nat}
    (h : readLowHalf high s = .ok (c, rest)) : rest.length ≤ s.length := by
  unfold readLowHalf at h
  split at h
  · next s' =>
    split at h
    · cases h
    · next low r hr =>
      have hr := length_hexUnit? hr
      split at h
      · simp only [Except.ok.injEq, Prod.mk.injEq] at h
        obtain ⟨-, rfl⟩ := h
        simp only [List.length_cons]
        omega
      · cases h
  · cases h

/-- What follows an escape is shorter than it. -/
theorem length_unescape {s rest : List Char} {c : Char} (h : unescape s = .ok (c, rest)) :
    rest.length < s.length := by
  unfold unescape at h
  split at h
  · cases h
  next d s =>
  rw [List.length_cons, Nat.lt_succ_iff]
  split at h
  · split at h
    · cases h
    next unit r hr =>
    have hr := length_hexUnit? hr
    split at h
    · split at h
      · exact Nat.le_trans (length_readLowHalf h) hr
      · cases h
    · simp only [Except.ok.injEq, Prod.mk.injEq] at h
      exact h.2 ▸ hr
  · split at h
    · cases h
    · cases h
      exact Nat.le_refl _

/-- The text through its closing quote, and the rest. `taken` are the characters before, in
reverse. -/
def readText (taken : List Char) (s : List Char) : Except Fault (String × List Char) :=
  match s with
  | [] => .error .ended
  | c :: s =>
    if c = '"' then .ok (String.ofList taken.reverse, s)
    else if c = '\\' then
      match h : unescape s with
      | .error e => .error e
      | .ok (d, rest) =>
        have := length_unescape h
        readText (d :: taken) rest
    else if c.toNat < 0x20 then .error (.control c)
    else readText (c :: taken) s
termination_by s.length

theorem length_readText {taken s rest : List Char} {t : String}
    (h : readText taken s = .ok (t, rest)) : rest.length < s.length := by
  fun_induction readText taken s with
  | case1 => cases h
  | case2 taken s =>
    cases h
    simp
  | case3 => cases h
  | case4 taken s _ d rest' hd _ ih =>
    have := ih h
    simp only [List.length_cons]
    omega
  | case5 => cases h
  | case6 taken c s _ _ _ ih =>
    have := ih h
    simp only [List.length_cons]
    omega

/-! ## Scalars -/

/-- The parts of a number as it is written. -/
structure Numeral where
  negative : Bool
  whole : List Char
  /-- The digits behind the point, if there is one. -/
  fraction : Option (List Char)
  /-- The exponent, if there is one. -/
  exponent : Option Int
  deriving DecidableEq, Repr

/-- The value of an integer. What 64 bits cannot hold becomes the nearest double, and so does the
zero with a sign. -/
def integerValue? (negative : Bool) (n : Nat) : Option Value :=
  if negative then
    if 0 < n ∧ n ≤ Nat.pow 2 63 then some (.int (Int64.ofInt (-n)))
    else (Double.ofDecimal? true n 0).map .float
  else if n < Nat.pow 2 63 then some (.int (Int64.ofInt n))
  else if n < Nat.pow 2 64 then some (.bigInt (UInt64.ofNat n))
  else (Double.ofDecimal? false n 0).map .float

namespace Numeral

/-- The value of a number, unless it is too large. -/
def value? (x : Numeral) : Option Value :=
  match x.fraction, x.exponent with
  | none, none => integerValue? x.negative (Text.value 10 x.whole)
  | fraction, exponent =>
    let fraction := fraction.getD []
    (Double.ofDecimal? x.negative (Text.value 10 (x.whole ++ fraction))
      (exponent.getD 0 - fraction.length)).map .float

/-- Whether digits can be the whole part of a number: a zero stands alone. -/
def isWhole (ds : List Char) : Bool :=
  match ds with
  | [] => false
  | d :: ds => d ≠ '0' || ds.isEmpty

/-- An exponent behind its letter: a sign, which can be missing, and digits to the end. -/
def exponent? (s : List Char) : Option Int :=
  match s with
  | '-' :: ds => (magnitude? ds).map fun n => -(n : Int)
  | '+' :: ds => (magnitude? ds).map Int.ofNat
  | ds => (magnitude? ds).map Int.ofNat
where
  /-- The number of one or more digits. -/
  magnitude? (ds : List Char) : Option Nat :=
    if ds.isEmpty || !ds.all Char.isDigit then none else some (Text.value 10 ds)

/-- The number behind its sign, whole part and fraction, when the rest of it is `s`. -/
def withExponent? (negative : Bool) (whole : List Char) (fraction : Option (List Char))
    (s : List Char) : Option Numeral :=
  match s with
  | [] => some { negative, whole, fraction, exponent := none }
  | c :: t =>
    if c = 'e' ∨ c = 'E' then
      (exponent? t).map fun e => { negative, whole, fraction, exponent := some e }
    else none

/-- The number behind its sign. -/
def unsigned? (negative : Bool) (s : List Char) : Option Numeral :=
  let whole := s.takeWhile Char.isDigit
  if !isWhole whole then none
  else
    match s.dropWhile Char.isDigit with
    | '.' :: t =>
      let fraction := t.takeWhile Char.isDigit
      if fraction.isEmpty then none
      else withExponent? negative whole (some fraction) (t.dropWhile Char.isDigit)
    | t => withExponent? negative whole none t

/-- The number that a word writes, if it writes one. -/
def ofWord? : List Char → Option Numeral
  | '-' :: s => unsigned? true s
  | s => unsigned? false s

end Numeral

/-- Whether a scalar without quotes can hold the character. -/
def isWordChar (c : Char) : Bool :=
  c.isAlphanum || c = '+' || c = '-' || c = '.'

/-- The scalar that a word stands for. -/
def scalarOfWord (word : List Char) : Except Fault Value :=
  if word = ['n', 'u', 'l', 'l'] then .ok .null
  else if word = ['t', 'r', 'u', 'e'] then .ok (.bool true)
  else if word = ['f', 'a', 'l', 's', 'e'] then .ok (.bool false)
  else
    match Numeral.ofWord? word with
    | none => .error (.badWord (String.ofList word))
    | some x =>
      match x.value? with
      | none => .error .numberTooLarge
      | some v => .ok v

/-! ## Tokens -/

/-- The token that a single character is, if it is one. -/
def punctuation? : Char → Option Token
  | '[' => some .openArray
  | ']' => some .closeArray
  | '{' => some .openObject
  | '}' => some .closeObject
  | ',' => some .comma
  | ':' => some .colon
  | _ => none

/-- The token at the head of the text `c :: s`, and the rest. -/
def first (c : Char) (s : List Char) : Except Fault (Token × List Char) :=
  match punctuation? c with
  | some t => .ok (t, s)
  | none =>
    if c = '"' then
      match readText [] s with
      | .error e => .error e
      | .ok (t, rest) => .ok (.text t, rest)
    else if isWordChar c then
      match scalarOfWord (c :: s.takeWhile isWordChar) with
      | .error e => .error e
      | .ok v => .ok (.scalar v, s.dropWhile isWordChar)
    else .error (.unexpected c)

/-- What follows the first token is shorter than the text. -/
theorem length_first {c : Char} {s rest : List Char} {t : Token}
    (h : first c s = .ok (t, rest)) : rest.length ≤ s.length := by
  unfold first at h
  split at h
  · cases h
    exact Nat.le_refl _
  split at h
  · split at h
    · cases h
    · next hr =>
      cases h
      exact Nat.le_of_lt (length_readText hr)
  split at h
  · split at h
    · cases h
    · cases h
      exact (s.dropWhile_sublist isWordChar).length_le
  · cases h

/-- The tokens of a text behind those already found, which are given in reverse. -/
def tokensFrom (found : List Token) : List Char → Except Fault (List Token)
  | [] => .ok found.reverse
  | c :: s =>
    if Text.isPlainBlank c then tokensFrom found s
    else
      match h : first c s with
      | .error e => .error e
      | .ok (t, rest) =>
        have := length_first h
        tokensFrom (t :: found) rest
termination_by s => s.length
decreasing_by
  · exact Nat.lt_succ_self _
  · exact Nat.lt_succ_of_le this

/-- The tokens of JSON text, in order. -/
def tokens (text : String) : Except Fault (List Token) :=
  tokensFrom [] text.toList

end BoundSql.Json
