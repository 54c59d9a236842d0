import BoundSql.Proofs.Double.Bits
import BoundSql.Proofs.Json.Numeral
import BoundSql.Proofs.Json.Reading

/-!
# Integers in JSON text

An `IntegerLiteral` is an integer as JSON writes it, of any length. Read as a word of JSON text, it
stands for the integer itself if 64 bits can hold it (`scalarOfWord_exact`, `scalarOfWord_unsigned`)
and for the nearest double otherwise (`scalarOfWord_rounded`).
-/

namespace BoundSql

namespace Json

/-- An integer as JSON writes it: a minus sign if there is one, and digits, of which a zero in front
stands alone. -/
structure IntegerLiteral where
  negative : Bool
  digits : List Char
  isDigit_digits : ∀ c ∈ digits, c.isDigit = true
  isWhole_digits : Numeral.isWhole digits = true

namespace IntegerLiteral

/-- The characters of a literal. -/
def chars (l : IntegerLiteral) : List Char :=
  if l.negative then '-' :: l.digits else l.digits

/-- The integer that a literal writes, its sign apart. -/
def size (l : IntegerLiteral) : Nat :=
  Text.value 10 l.digits

/-- The integer that a literal writes. -/
def number (l : IntegerLiteral) : Int :=
  if l.negative then -l.size else l.size

/-- The literal of an integer. -/
def ofInt (n : Int) : IntegerLiteral where
  negative := n < 0
  digits := Text.digits n.natAbs
  isDigit_digits _ := Text.isDigit_of_mem_digits
  isWhole_digits := by
    obtain ⟨d, ds, hds⟩ := List.exists_cons_of_ne_nil (Text.digits_ne_nil n.natAbs)
    rw [hds, Numeral.isWhole]
    by_cases hn : n.natAbs = 0
    · rw [hn] at hds
      cases hds
      rfl
    · have hhead := Text.head?_digits_ne_zero hn
      rw [hds, List.head?_cons, ne_eq, Option.some.injEq] at hhead
      simp [hhead]

@[simp] theorem number_ofInt (n : Int) : (ofInt n).number = n := by
  rw [number, size, ofInt, Text.value_digits]
  by_cases hn : n < 0
  · simp only [hn, decide_true, if_true]
    omega
  · simp only [hn, decide_false]
    rw [if_neg (by decide)]
    omega

@[simp] theorem chars_ofInt (n : Int) : (ofInt n).chars = (Text.integer n).toList := by
  rw [Text.integer, chars, ofInt]
  by_cases hn : n < 0 <;> simp [hn, Text.natural]

/-- A literal that 64 bits with a sign can hold. A zero with a sign is none: it is a double. -/
structure IsExact (l : IntegerLiteral) : Prop where
  low : -2 ^ 63 ≤ l.number
  high : l.number < 2 ^ 63
  no_negative_zero : l.negative = true → l.number ≠ 0

/-- Each integer of 64 bits has a literal that they can hold. -/
theorem isExact_ofInt (n : Int64) : (ofInt n.toInt).IsExact where
  low := by
    rw [number_ofInt]
    exact n.le_toInt
  high := by
    rw [number_ofInt]
    exact n.toInt_lt
  no_negative_zero hneg := by
    rw [number_ofInt]
    exact (of_decide_eq_true hneg : n.toInt < 0).ne

variable (l : IntegerLiteral)

/-- The parts of a literal, which has neither a point nor an exponent. -/
def numeral : Numeral where
  negative := l.negative
  whole := l.digits
  fraction := none
  exponent := none

theorem isProper_numeral : l.numeral.IsProper :=
  Numeral.isProper_whole l.isDigit_digits l.isWhole_digits

@[simp] theorem chars_numeral : l.numeral.chars = l.chars := by
  rw [Numeral.chars, chars]
  cases hsign : l.negative <;> simp [numeral, hsign, Numeral.unsignedChars, Numeral.fractionChars,
    Numeral.exponentChars]

theorem isWordChar_of_mem : ∀ c ∈ l.chars, isWordChar c = true := by
  rw [← l.chars_numeral]
  exact Numeral.isWordChar_of_mem_chars l.isProper_numeral

theorem digits_ne_nil : l.digits ≠ [] := by
  intro h
  have hwhole := l.isWhole_digits
  rw [h] at hwhole
  cases hwhole

theorem scalarOfWord_chars :
    scalarOfWord l.chars = match integerValue? l.negative l.size with
      | none => .error .numberTooLarge
      | some v => .ok v := by
  have hword := Numeral.ofWord?_chars l.isProper_numeral
  rw [chars_numeral] at hword
  exact scalarOfWord_of_ofWord? hword

theorem number_of_negative (h : l.negative = true) : l.number = -l.size := by
  rw [number, if_pos h]

theorem number_of_not_negative (h : l.negative = false) : l.number = l.size := by
  rw [number, h, if_neg (by decide)]

/-- An integer that fits is kept as it is. -/
theorem scalarOfWord_exact (h : l.IsExact) :
    scalarOfWord l.chars = .ok (.int (Int64.ofInt l.number)) := by
  obtain ⟨hlow, hhigh, hzero⟩ := h
  have hvalue : integerValue? l.negative l.size = some (.int (Int64.ofInt l.number)) := by
    cases hsign : l.negative with
    | true =>
      rw [l.number_of_negative hsign] at hlow hzero ⊢
      have hsize : 0 < l.size ∧ l.size ≤ Nat.pow 2 63 := by
        have hne := hzero hsign
        rw [Double.pow_two_63]
        omega
      rw [integerValue?, if_pos rfl, if_pos hsize]
    | false =>
      rw [l.number_of_not_negative hsign] at hhigh ⊢
      have hsize : l.size < Nat.pow 2 63 := by
        rw [Double.pow_two_63]
        omega
      rw [integerValue?, if_neg (by decide), if_pos hsize]
  rw [l.scalarOfWord_chars, hvalue]

theorem writes_chars (h : l.IsExact) : Writes l.chars (.int (Int64.ofInt l.number)) :=
  writes_word l.isWordChar_of_mem (l.scalarOfWord_exact h) rfl

/-- An integer beyond the signed range is kept too, as far as 64 bits without a sign go. -/
theorem scalarOfWord_unsigned (hlow : 2 ^ 63 ≤ l.number) (hhigh : l.number < 2 ^ 64) :
    ∃ n : UInt64, scalarOfWord l.chars = .ok (.bigInt n) ∧ n.toNat = l.number := by
  have hsign : l.negative = false := by
    rw [← Bool.not_eq_true]
    intro hsign
    rw [l.number_of_negative hsign] at hlow
    omega
  rw [l.number_of_not_negative hsign] at hlow hhigh ⊢
  have hvalue : integerValue? l.negative l.size = some (.bigInt (UInt64.ofNat l.size)) := by
    have h64 : Nat.pow 2 64 = 18446744073709551616 := rfl
    rw [integerValue?, hsign, if_neg (by decide), if_neg, if_pos]
    · rw [h64]
      omega
    · rw [Double.pow_two_63]
      omega
  refine ⟨UInt64.ofNat l.size, by rw [l.scalarOfWord_chars, hvalue], ?_⟩
  rw [UInt64.toNat_ofNat_of_lt' (by rw [UInt64.size]; omega)]

/-- Any other integer is rounded to a double, unless it is too large for one. -/
theorem scalarOfWord_rounded (hexact : ¬ l.IsExact)
    (hunsigned : ¬ (2 ^ 63 ≤ l.number ∧ l.number < 2 ^ 64)) :
    scalarOfWord l.chars = match Double.ofDecimal? l.negative l.size 0 with
      | none => .error .numberTooLarge
      | some x => .ok (.float x) := by
  have hvalue : integerValue? l.negative l.size =
      (Double.ofDecimal? l.negative l.size 0).map .float := by
    have h64 : Nat.pow 2 64 = 18446744073709551616 := rfl
    cases hsign : l.negative with
    | true =>
      have hnumber := l.number_of_negative hsign
      rw [integerValue?, if_pos rfl, if_neg]
      rintro ⟨hpos, hle⟩
      rw [Double.pow_two_63] at hle
      exact hexact ⟨by omega, by omega, fun _ => by omega⟩
    | false =>
      have hnumber := l.number_of_not_negative hsign
      have hlarge : ¬ l.number < 2 ^ 63 := fun hhigh =>
        hexact ⟨by omega, hhigh, fun h => absurd h (by rw [hsign]; decide)⟩
      rw [integerValue?, if_neg (by decide), if_neg, if_neg]
      · rw [h64]
        omega
      · rw [Double.pow_two_63]
        omega
  rw [l.scalarOfWord_chars, hvalue]
  cases Double.ofDecimal? l.negative l.size 0 <;> rfl

end IntegerLiteral

end Json

end BoundSql
