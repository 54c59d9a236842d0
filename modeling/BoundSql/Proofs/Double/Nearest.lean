import BoundSql.Double.Shortest
import BoundSql.Proofs.Double.Bits
import Mathlib.Tactic.Ring

/-!
# Which numbers are read as a double

Around each double there is an interval of numbers. `Interval.Holds i n d` says that the quotient
`n / d` lies in it. Every quotient in the interval of a double is rounded to the double
(`nearestBits_eq`): the rounding looks at the place where a double of this size has its last bit,
and there the double is the nearest one.
-/

namespace BoundSql

/-- A quotient is rounded to the natural number that it is at most half away from, and to an even
one if it is half away. -/
theorem roundQuotient_eq {n d q : Nat} (hd : 0 < d) (hlow : 2 * (q * d) ≤ 2 * n + d)
    (hhigh : 2 * n ≤ 2 * (q * d) + d)
    (htie : q % 2 = 0 ∨ 2 * (q * d) < 2 * n + d ∧ 2 * n < 2 * (q * d) + d) :
    roundQuotient n d = q := by
  have hn : n / d * d + n % d = n := Nat.div_add_mod' n d
  have hr : n % d < d := Nat.mod_lt n hd
  have hle : n / d ≤ q := by
    by_contra hlt
    have hmul : (q + 1) * d ≤ n / d * d := Nat.mul_le_mul_right d (by omega)
    rw [Nat.add_mul] at hmul
    omega
  have hge : q ≤ n / d + 1 := by
    by_contra hlt
    have hmul : (n / d + 2) * d ≤ q * d := Nat.mul_le_mul_right d (by omega)
    rw [Nat.add_mul] at hmul
    omega
  unfold roundQuotient
  simp only
  rcases (by omega : q = n / d ∨ q = n / d + 1) with hq | hq
  · rw [hq] at hlow hhigh htie ⊢
    split
    · rfl
    · split
      · omega
      · split <;> omega
  · rw [hq, Nat.add_mul] at hlow hhigh htie
    rw [hq]
    split
    · omega
    · split
      · rfl
      · split <;> omega

namespace Double

variable {n d : Nat} {x : Double}

/-! ## Significand and spacing -/

/-- The bits of a double that are its digits: those of the fraction, and a leading one unless the
double is very small. -/
def significand (x : Double) : Nat :=
  if x.exponent = 0 then x.fraction else Nat.pow 2 52 + x.fraction

/-- The distance from a double to the next larger one, in units of the least double. -/
def spacing (x : Double) : Nat :=
  2 ^ (x.exponent - 1)

theorem spacing_pos (x : Double) : 0 < x.spacing :=
  Nat.two_pow_pos _

theorem spacing_le {e : Nat} (h : x.exponent - 1 ≤ e) : x.spacing ≤ Nat.pow 2 e :=
  Nat.pow_le_pow_right (by decide) h

theorem significand_lt (x : Double) : x.significand < 2 ^ 53 := by
  have hfraction := x.fraction_lt
  rw [pow_two_52] at hfraction
  rw [significand, pow_two_52]
  split <;> omega

theorem significand_mod_two (x : Double) : x.significand % 2 = x.fraction % 2 := by
  rw [significand, pow_two_52]
  split <;> omega

theorem magnitude_eq (x : Double) : x.magnitude = x.significand * x.spacing := by
  rw [magnitude, significand, spacing]
  split
  · next h => rw [h, Nat.zero_sub, Nat.pow_zero, Nat.mul_one]
  · rfl

theorem magnitudeBits_eq (x : Double) :
    x.magnitudeBits = (x.exponent - 1) * Nat.pow 2 52 + x.significand := by
  rw [magnitudeBits, significand, pow_two_52]
  split <;> omega

/-! ## The interval of a double -/

/-- A double in the middle of its binade is half the spacing away from the ends of its interval. -/
theorem gap_eq (x : Double) : Nat.pow 2 (max x.exponent 1) = 2 * x.spacing := by
  rw [spacing, ← Nat.pow_succ', Nat.pow_eq]
  congr 1
  omega

theorem unitQuarters_eq : unitQuarters = 4 * Nat.pow 2 1074 := by
  decide +kernel

theorem unitQuarters_pos : 0 < unitQuarters := by
  decide +kernel

/-- Whether the quotient `n / d` lies in an interval. -/
def Interval.Holds (i : Interval) (n d : Nat) : Prop :=
  if i.closed then i.low * d ≤ n * unitQuarters ∧ n * unitQuarters ≤ i.high * d
  else i.low * d < n * unitQuarters ∧ n * unitQuarters < i.high * d

/-- In units of the least double, a quotient in the interval of a double is at most half the spacing
away from it, and less if the last bit of the double is set. Below a power of two it is at most a
quarter of the spacing away. -/
theorem bounds_of_holds (h : x.interval.Holds n d) :
    2 * (x.significand * (d * x.spacing)) ≤ 2 * (n * Nat.pow 2 1074) + d * x.spacing ∧
    2 * (n * Nat.pow 2 1074) ≤ 2 * (x.significand * (d * x.spacing)) + d * x.spacing ∧
    (x.significand % 2 = 0 ∨
      2 * (x.significand * (d * x.spacing)) < 2 * (n * Nat.pow 2 1074) + d * x.spacing ∧
      2 * (n * Nat.pow 2 1074) < 2 * (x.significand * (d * x.spacing)) + d * x.spacing) ∧
    (x.fraction = 0 → 1 < x.exponent →
      4 * (x.significand * (d * x.spacing)) ≤ 4 * (n * Nat.pow 2 1074) + d * x.spacing) := by
  have hunits : n * unitQuarters = 4 * (n * Nat.pow 2 1074) := by
    rw [unitQuarters_eq]
    ring
  have hvalue : 4 * x.magnitude * d = 4 * (x.significand * (d * x.spacing)) := by
    rw [magnitude_eq]
    ring
  have hhalf : 2 * x.spacing * d = 2 * (d * x.spacing) := by ring
  have hquarter : x.spacing * d = d * x.spacing := Nat.mul_comm ..
  rw [Interval.Holds, interval, gap_eq, hunits] at h
  simp only [decide_eq_true_eq, Nat.sub_mul, Nat.add_mul, hvalue, ← significand_mod_two, ite_mul,
    Nat.mul_div_cancel_left x.spacing (by decide : 0 < 2), hhalf, hquarter] at h
  generalize x.significand * (d * x.spacing) = s at *
  generalize d * x.spacing = t at *
  generalize n * Nat.pow 2 1074 = u at *
  split at h <;> split at h <;> omega

/-! ## Rounding -/

/-- The place of the last bit of a quotient with fifty-three bits, or fewer if the place is the last
one that there is. -/
theorem log2_div_sub {u e : Nat} (hd : 0 < d) (hlow : 0 < e → 2 ^ 52 * (d * 2 ^ e) ≤ u)
    (hhigh : u < 2 ^ 53 * (d * 2 ^ e)) : (u / d).log2 - 52 = e := by
  have hlt : u / d < 2 ^ (52 + e + 1) := by
    rw [Nat.div_lt_iff_lt_mul hd]
    calc u < 2 ^ 53 * (d * 2 ^ e) := hhigh
      _ = 2 ^ (52 + e + 1) * d := by ring
  rcases Nat.eq_zero_or_pos e with rfl | he
  · rcases Nat.eq_zero_or_pos (u / d) with hzero | hpos
    · rw [hzero]
      rfl
    · have hlog := (Nat.log2_lt hpos.ne').2 hlt
      omega
  · have hle : 2 ^ (52 + e) ≤ u / d := by
      rw [Nat.le_div_iff_mul_le hd]
      calc 2 ^ (52 + e) * d = 2 ^ 52 * (d * 2 ^ e) := by ring
        _ ≤ u := hlow he
    have hne : u / d ≠ 0 := ((Nat.two_pow_pos _).trans_le hle).ne'
    have hlog := (Nat.log2_eq_iff hne).2 ⟨hle, hlt⟩
    omega

/-- A quotient below a power of two has its last bit at half the spacing of the power. There it is
rounded up to a number of one bit more, which is the power. -/
theorem nearestBits_eq_of_below (hd : 0 < d) (h : x.interval.Holds n d) (hexponent : 1 < x.exponent)
    (hbelow : n * Nat.pow 2 1074 < 2 ^ 52 * (d * x.spacing)) :
    nearestBits n d = x.magnitudeBits := by
  obtain ⟨hlow, -, -, hquarter⟩ := bounds_of_holds h
  have hpos : 0 < d * x.spacing := Nat.mul_pos hd x.spacing_pos
  unfold nearestBits
  simp only
  generalize n * Nat.pow 2 1074 = u at *
  have hnormal : x.significand = 2 ^ 52 + x.fraction := by
    rw [significand, if_neg (by omega)]
    rfl
  have hsignificand : x.significand = 2 ^ 52 := by
    by_contra hne
    have hmul : (2 ^ 52 + 1) * (d * x.spacing) ≤ x.significand * (d * x.spacing) :=
      Nat.mul_le_mul_right _ (by omega)
    omega
  have hnear := hquarter (by omega) hexponent
  rw [hsignificand] at hnear
  obtain ⟨e, he⟩ : ∃ e, x.exponent = e + 2 := ⟨x.exponent - 2, by omega⟩
  have hspacing : x.spacing = 2 * 2 ^ e := by
    rw [spacing, he, ← Nat.pow_succ']
    rfl
  have hdouble : d * x.spacing = 2 * (d * Nat.pow 2 e) := by
    rw [hspacing, Nat.pow_eq]
    ring
  rw [hdouble] at hnear hbelow hpos
  have hscale : (u / d).log2 - 52 = e := by
    rw [Nat.pow_eq] at hnear hbelow hpos
    exact log2_div_sub hd (fun _ => by omega) (by omega)
  have hround : roundQuotient u (d * Nat.pow 2 e) = 2 ^ 53 :=
    roundQuotient_eq (by omega) (by omega) (by omega) (.inl (by decide))
  rw [hscale, hround, x.magnitudeBits_eq, hsignificand, he, pow_two_52]
  omega

/-- **What lies in the interval of a double is rounded to it.** -/
theorem nearestBits_eq (hd : 0 < d) (h : x.interval.Holds n d) :
    nearestBits n d = x.magnitudeBits := by
  by_cases hbinade : x.exponent ≤ 1 ∨ 2 ^ 52 * (d * x.spacing) ≤ n * Nat.pow 2 1074
  · obtain ⟨hlow, hhigh, htie, -⟩ := bounds_of_holds h
    have hscale : (n * Nat.pow 2 1074 / d).log2 - 52 = x.exponent - 1 := by
      refine log2_div_sub hd (fun he => hbinade.resolve_left (by omega)) ?_
      have hmul : (x.significand + 1) * (d * x.spacing) ≤ 2 ^ 53 * (d * x.spacing) :=
        Nat.mul_le_mul_right _ x.significand_lt
      have hpos : 0 < d * x.spacing := Nat.mul_pos hd x.spacing_pos
      rw [Nat.add_mul, Nat.one_mul] at hmul
      rw [← spacing]
      omega
    have hspacing : Nat.pow 2 (x.exponent - 1) = x.spacing := rfl
    unfold nearestBits
    simp only
    rw [hscale, x.magnitudeBits_eq, hspacing,
      roundQuotient_eq (Nat.mul_pos hd x.spacing_pos) hlow hhigh htie]
  · rw [not_or, Nat.not_le, Nat.not_le] at hbinade
    exact nearestBits_eq_of_below hd h hbinade.1 hbinade.2

end Double

end BoundSql
