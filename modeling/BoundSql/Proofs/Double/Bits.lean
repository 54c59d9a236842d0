import BoundSql.Double.Nearest

/-!
# The parts of a double

A double is made of a sign and of the bits of its absolute value, which are those of its exponent
and its fraction. It is put together again from them (`ofSign_magnitudeBits`), and what is read from
digits is finite (`isFinite_ofDecimal?`).
-/

namespace BoundSql.Double

variable {negative : Bool} {bits : Nat} {x : Double}

/-- The bits of a double, its sign bit apart. -/
def magnitudeBits (x : Double) : Nat :=
  x.exponent * Nat.pow 2 52 + x.fraction

theorem pow_two_11 : Nat.pow 2 11 = 2048 := rfl

theorem pow_two_52 : Nat.pow 2 52 = 4503599627370496 := rfl

theorem pow_two_63 : Nat.pow 2 63 = 9223372036854775808 := rfl

theorem toNat_bits_ofSign (h : bits < Nat.pow 2 63) :
    (ofSign negative bits).bits.toNat = (if negative then Nat.pow 2 63 else 0) + bits := by
  rw [pow_two_63] at *
  cases negative with
  | true =>
    rw [ofSign, if_pos rfl, if_pos rfl, pow_two_63]
    exact UInt64.toNat_ofNat_of_lt' (by simp [UInt64.size]; omega)
  | false =>
    rw [ofSign, if_neg (by decide), if_neg (by decide), Nat.zero_add]
    exact UInt64.toNat_ofNat_of_lt' (by simp [UInt64.size]; omega)

theorem exponent_ofSign (h : bits < Nat.pow 2 63) :
    (ofSign negative bits).exponent = bits / Nat.pow 2 52 := by
  rw [exponent, toNat_bits_ofSign h, pow_two_11, pow_two_52, pow_two_63]
  rw [pow_two_63] at h
  split <;> omega

theorem fraction_lt (x : Double) : x.fraction < Nat.pow 2 52 :=
  Nat.mod_lt _ (by decide)

theorem magnitudeBits_lt (x : Double) : x.magnitudeBits < Nat.pow 2 63 := by
  rw [magnitudeBits, exponent, fraction, pow_two_11, pow_two_52, pow_two_63]
  omega

/-- A zero has no bits but that of its sign. -/
theorem magnitudeBits_eq_zero (h : x.magnitude = 0) : x.magnitudeBits = 0 := by
  unfold magnitude at h
  split at h
  · next hexponent => rw [magnitudeBits, hexponent, h, Nat.zero_mul]
  · rw [pow_two_52, Nat.mul_eq_zero] at h
    have hpow : 0 < Nat.pow 2 (x.exponent - 1) := Nat.two_pow_pos _
    omega

/-- **A double is its sign and the bits of its absolute value.** -/
theorem ofSign_magnitudeBits (x : Double) : ofSign x.negative x.magnitudeBits = x := by
  have hbits : (ofSign x.negative x.magnitudeBits).bits.toNat = x.bits.toNat := by
    have hlt := x.bits.toNat_lt
    rw [toNat_bits_ofSign x.magnitudeBits_lt]
    simp only [negative, magnitudeBits, exponent, fraction, decide_eq_true_eq, pow_two_11,
      pow_two_52, pow_two_63]
    split <;> omega
  exact congrArg Double.mk (UInt64.toNat.inj hbits)

/-- A number that is read from digits is finite. -/
theorem isFinite_ofDecimal? {m : Nat} {e : Int} (h : ofDecimal? negative m e = some x) :
    x.isFinite = true := by
  have hfinite : ∀ bits < infinityBits, (ofSign negative bits).isFinite = true := by
    intro bits hbits
    rw [infinityBits, pow_two_52] at hbits
    rw [isFinite, exponent_ofSign (by rw [pow_two_63]; omega), decide_eq_true_eq, pow_two_52]
    omega
  unfold ofDecimal? at h
  simp only at h
  split at h
  · cases h
    exact hfinite 0 (by decide)
  split at h
  · cases h
  split at h
  · next hlt =>
    cases h
    exact hfinite _ hlt
  · cases h

end BoundSql.Double
