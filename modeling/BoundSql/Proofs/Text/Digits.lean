import BoundSql.Text.Decimal
import Mathlib.Data.Nat.Digits.Lemmas
import Mathlib.Tactic.Ring

/-!
# Numbers and their digits

The digits of a number are decimal digits, the first of them is no zero unless it stands alone, and
they have the value of the number. `value_append` and `value_replicate_zero` compute the value of
digits that are put together, and `pow_le_of_digits` and `lt_pow_of_digits` tell how large a number
with so many digits is.
-/

namespace BoundSql.Text

variable {c : Char} {ds es : List Char} {n : Nat}

theorem digitValue?_of_isDigit (h : c.isDigit = true) :
    digitValue? c = some (c.toNat - '0'.toNat) := by
  rw [digitValue?, if_pos h]
  rfl

/-- Decimal digits have the value that they have in the library. -/
theorem value_eq_ofDigitChars (h : ∀ c ∈ ds, c.isDigit = true) :
    value 10 ds = Nat.ofDigitChars 10 ds 0 := by
  rw [value, Nat.ofDigitChars_eq_foldl]
  refine List.foldl_ext _ _ 0 fun m c hc => ?_
  rw [digitValue?_of_isDigit (h c hc)]
  rfl

theorem isDigit_of_mem_digits (h : c ∈ digits n) : c.isDigit = true :=
  Nat.isDigit_of_mem_toDigits (by decide) (by decide) h

theorem digits_ne_nil (n : Nat) : digits n ≠ [] :=
  Nat.toDigits_ne_nil

/-- **The digits of a number have its value.** -/
@[simp] theorem value_digits (n : Nat) : value 10 (digits n) = n := by
  rw [value_eq_ofDigitChars fun c => isDigit_of_mem_digits]
  exact Nat.ofDigitChars_ten_toDigits

/-- The first digit of a number that is not zero is not zero. -/
theorem head?_digits_ne_zero (h : n ≠ 0) : (digits n).head? ≠ some '0' := by
  induction n using Nat.strong_induction_on with
  | _ n ih =>
    rcases Nat.lt_or_ge n 10 with hlt | hge
    · rw [digits, Nat.toDigits_of_lt_base hlt, List.head?_cons, ne_eq, Option.some.injEq,
        Nat.digitChar_eq_zero]
      exact h
    · have hhead := ih (n / 10) (by omega) (by omega)
      obtain ⟨d, ds, hds⟩ := List.exists_cons_of_ne_nil (digits_ne_nil (n / 10))
      rw [digits] at hhead hds
      rw [digits, Nat.toDigits_of_base_le (by decide) hge, hds]
      rwa [hds] at hhead

/-- A number that is not zero has its first digit where the count of its digits tells. -/
theorem pow_le_of_digits (h : n ≠ 0) : 10 ^ ((digits n).length - 1) ≤ n := by
  by_contra hlt
  have hpos : 0 < (digits n).length - 1 := by
    by_contra hzero
    rw [Nat.eq_zero_of_not_pos hzero] at hlt
    omega
  have hlength : (digits n).length ≤ (digits n).length - 1 :=
    (Nat.length_toDigits_le_iff (by decide) hpos).2 (Nat.not_le.1 hlt)
  omega

theorem lt_pow_of_digits (n : Nat) : n < 10 ^ (digits n).length :=
  (Nat.length_toDigits_le_iff (by decide) Nat.length_toDigits_pos).1 (Nat.le_refl _)

/-! ## Digits that are put together -/

theorem value_concat (ds : List Char) (c : Char) :
    value 10 (ds ++ [c]) = 10 * value 10 ds + (digitValue? c).getD 0 := by
  rw [value, List.foldl_append]
  rfl

@[simp] theorem value_append (ds es : List Char) :
    value 10 (ds ++ es) = value 10 ds * 10 ^ es.length + value 10 es := by
  induction es using List.reverseRecOn with
  | nil => rw [List.append_nil, List.length_nil, Nat.pow_zero, Nat.mul_one]; rfl
  | append_singleton es c ih =>
    rw [← List.append_assoc, value_concat, value_concat, ih, List.length_append,
      List.length_singleton, Nat.pow_succ]
    ring

@[simp] theorem value_replicate_zero (n : Nat) : value 10 (List.replicate n '0') = 0 := by
  induction n with
  | zero => rfl
  | succ n ih =>
    rw [List.replicate_succ', value_concat, ih]
    rfl

end BoundSql.Text
