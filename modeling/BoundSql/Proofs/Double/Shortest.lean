import BoundSql.Proofs.Double.Nearest
import BoundSql.Proofs.Text.Digits

/-!
# The shortest decimal is read back

The search for the shortest decimal of a double ends with a decimal in the interval of the double
(`holdsDecimal_shortest`): a neighbour is taken only if it lies there, and the last grid is so fine
that the step below the double lies there too (`Interval.holdsDecimal_stepsBelow`).

A decimal in the interval of a double is read as this double (`ofDecimal?_eq`), whichever digits and
power of ten it is given by (`Interval.holdsDecimal_shift`). What is read by its size alone is not
concerned, since it lies in no such interval (`size_ge`, `size_le`).
-/

namespace BoundSql

/-! ## Scientific notation -/

namespace Scientific

/-- The number that the digits of a decimal write. -/
def significand (d : Scientific) : Nat :=
  Text.value 10 d.digits

/-- The power of ten that the last digit of a decimal counts. -/
def scale (d : Scientific) : Int :=
  d.exponent + 1 - d.digits.length

/-- Whether a decimal has digits only, and no zero in front. -/
structure IsNormal (d : Scientific) : Prop where
  isDigit_digits : ∀ c ∈ d.digits, c.isDigit = true
  head_ne_zero : ∃ c ds, d.digits = c :: ds ∧ c ≠ '0'

end Scientific

namespace Double

variable {i : Interval} {k m : Nat} {e : Int} {x : Double}

/-- Scientific notation leaves out zeros at the end, and nothing else. -/
theorem exists_zeros (k : Nat) (e : Int) :
    ∃ j, Text.digits k = (scientific k e).digits ++ List.replicate j '0' := by
  refine ⟨((Text.digits k).reverse.takeWhile (· = '0')).length, ?_⟩
  have hzeros : ((Text.digits k).reverse.takeWhile (· = '0')).reverse =
      List.replicate ((Text.digits k).reverse.takeWhile (· = '0')).length '0' := by
    rw [List.eq_replicate_iff, List.length_reverse]
    refine ⟨rfl, fun c hc => ?_⟩
    exact of_decide_eq_true (List.all_eq_true.1 List.all_takeWhile c (List.mem_reverse.1 hc))
  rw [scientific, ← hzeros, ← List.reverse_append, List.takeWhile_append_dropWhile,
    List.reverse_reverse]

theorem isNormal_scientific (hk : k ≠ 0) (e : Int) : (scientific k e).IsNormal := by
  obtain ⟨j, hj⟩ := exists_zeros k e
  have hhead := Text.head?_digits_ne_zero hk
  have hne := Text.digits_ne_nil k
  constructor
  · intro c hc
    refine Text.isDigit_of_mem_digits (n := k) ?_
    rw [hj]
    exact List.mem_append_left _ hc
  · rw [hj] at hhead hne
    cases hdigits : (scientific k e).digits with
    | nil =>
      rw [hdigits, List.nil_append] at hhead hne
      cases j with
      | zero => exact absurd rfl hne
      | succ j => exact absurd rfl hhead
    | cons c ds =>
      refine ⟨c, ds, rfl, ?_⟩
      rintro rfl
      rw [hdigits] at hhead
      exact hhead rfl

/-- A number is the one of its digits in scientific notation, with the zeros that were left out. -/
theorem exists_shift (k : Nat) (e : Int) :
    ∃ j : Nat, (scientific k e).significand * 10 ^ j = k ∧ (scientific k e).scale - j = e := by
  obtain ⟨j, hj⟩ := exists_zeros k e
  refine ⟨j, ?_, ?_⟩
  · have hvalue := Text.value_digits k
    rw [hj, Text.value_append, Text.value_replicate_zero, List.length_replicate] at hvalue
    exact hvalue
  · have hexponent : (scientific k e).exponent = e + (Text.digits k).length - 1 := rfl
    rw [Scientific.scale, hexponent, hj, List.length_append, List.length_replicate]
    omega

/-! ## Decimals in an interval -/

/-- The powers of ten above and below a fraction line, when the exponent is lowered. -/
theorem ten_pow_shift (e : Int) (j : Nat) :
    10 ^ (e - j).toNat * 10 ^ j * 10 ^ (-e).toNat = 10 ^ e.toNat * 10 ^ (-(e - j)).toNat := by
  simp only [← Nat.pow_add]
  congr 1
  omega

namespace Interval

/-- Whether the decimal `m · 10 ^ e` lies in an interval. -/
def HoldsDecimal (i : Interval) (m : Nat) (e : Int) : Prop :=
  i.Holds (m * Nat.pow 10 e.toNat) (Nat.pow 10 (-e).toNat)

theorem Holds.le {n d : Nat} (h : i.Holds n d) :
    i.low * d ≤ n * unitQuarters ∧ n * unitQuarters ≤ i.high * d := by
  unfold Holds at h
  split at h
  · exact h
  · exact ⟨h.1.le, h.2.le⟩

/-- Equal quotients lie in the same intervals. -/
theorem Holds.of_mul_eq {n d n' d' : Nat} (hd : 0 < d) (hd' : 0 < d') (heq : n * d' = n' * d)
    (h : i.Holds n d) : i.Holds n' d' := by
  unfold Holds at h ⊢
  generalize unitQuarters = u at h ⊢
  have hnumber : n' * u * d = n * u * d' := by rw [Nat.mul_right_comm, ← heq, Nat.mul_right_comm]
  have hlow : i.low * d' * d = i.low * d * d' := Nat.mul_right_comm ..
  have hhigh : i.high * d' * d = i.high * d * d' := Nat.mul_right_comm ..
  split at h
  · next hclosed =>
    rw [if_pos hclosed]
    refine ⟨Nat.le_of_mul_le_mul_right ?_ hd, Nat.le_of_mul_le_mul_right ?_ hd⟩
    · rw [hnumber, hlow]
      exact Nat.mul_le_mul_right d' h.1
    · rw [hnumber, hhigh]
      exact Nat.mul_le_mul_right d' h.2
  · next hclosed =>
    rw [if_neg hclosed]
    refine ⟨Nat.lt_of_mul_lt_mul_right (a := d) ?_, Nat.lt_of_mul_lt_mul_right (a := d) ?_⟩
    · rw [hnumber, hlow]
      exact Nat.mul_lt_mul_of_pos_right h.1 hd'
    · rw [hnumber, hhigh]
      exact Nat.mul_lt_mul_of_pos_right h.2 hd'

/-- A decimal with zeros at its end is the one without them at a higher power of ten. -/
theorem holdsDecimal_shift {j : Nat} :
    i.HoldsDecimal (m * 10 ^ j) (e - j) ↔ i.HoldsDecimal m e := by
  have heq : m * 10 ^ j * Nat.pow 10 (e - j).toNat * Nat.pow 10 (-e).toNat =
      m * Nat.pow 10 e.toNat * Nat.pow 10 (-(e - j)).toNat := by
    calc m * 10 ^ j * 10 ^ (e - j).toNat * 10 ^ (-e).toNat
        = m * (10 ^ (e - j).toNat * 10 ^ j * 10 ^ (-e).toNat) := by ring
      _ = m * 10 ^ e.toNat * 10 ^ (-(e - j)).toNat := by rw [ten_pow_shift, Nat.mul_assoc]
  exact ⟨Holds.of_mul_eq (Nat.pow_pos (by decide)) (Nat.pow_pos (by decide)) heq,
    Holds.of_mul_eq (Nat.pow_pos (by decide)) (Nat.pow_pos (by decide)) heq.symm⟩

theorem contains_gridStep_iff : i.contains (gridStep e) k = true ↔ i.HoldsDecimal k e := by
  rw [HoldsDecimal, Holds, contains, gridStep, ← Nat.mul_assoc]
  split <;> simp

/-! ## The search -/

/-- The steps of a grid that lie below the value of an interval. -/
def stepsBelow (i : Interval) (e : Int) : Nat :=
  i.value * (gridStep e).2 / (gridStep e).1

theorem contains_of_neighbour? {tie : Tie} {step : Nat × Nat} (h : i.neighbour? tie step = some k) :
    i.contains step k = true := by
  unfold neighbour? at h
  simp only at h
  split at h
  · cases h
  · next hbelow _ =>
    cases h
    exact hbelow
  · next _ habove =>
    cases h
    exact habove
  · next hbelow habove =>
    split at h
    · cases h
      exact hbelow
    split at h
    · cases h
      exact habove
    cases tie with
    | up =>
      cases h
      exact habove
    | even =>
      cases h
      split
      · exact hbelow
      · exact habove

/-- **The search ends with a decimal in the interval**, if the last grid has one. -/
theorem exists_search {tie : Tie} {grids : Nat}
    (hlast : i.HoldsDecimal (i.stepsBelow (e - grids)) (e - grids)) :
    ∃ k e', i.search tie e grids = scientific k e' ∧ i.HoldsDecimal k e' := by
  induction grids generalizing e with
  | zero =>
    rw [Int.natCast_zero, Int.sub_zero] at hlast
    exact ⟨_, e, rfl, hlast⟩
  | succ grids ih =>
    rw [search]
    split
    · next k hk => exact ⟨k, e, rfl, contains_gridStep_iff.1 (contains_of_neighbour? hk)⟩
    · refine ih ?_
      have hexponent : e - 1 - (grids : Int) = e - (grids + 1 : Nat) := by omega
      rwa [hexponent]

theorem gridStep_pos (e : Int) : 0 < (gridStep e).1 ∧ 0 < (gridStep e).2 :=
  ⟨Nat.mul_pos (Nat.pow_pos (by decide)) unitQuarters_pos, Nat.pow_pos (by decide)⟩

/-- The steps of a grid are ten times as fine as those of the one before. -/
theorem gridStep_sub (e : Int) (j : Nat) :
    (gridStep (e - j)).1 * 10 ^ j * (gridStep e).2 = (gridStep e).1 * (gridStep (e - j)).2 := by
  simp only [gridStep, Nat.pow_eq]
  generalize unitQuarters = u
  calc 10 ^ (e - j).toNat * u * 10 ^ j * 10 ^ (-e).toNat
      = 10 ^ (e - j).toNat * 10 ^ j * 10 ^ (-e).toNat * u := by ring
    _ = 10 ^ e.toNat * u * 10 ^ (-(e - j)).toNat := by rw [ten_pow_shift, Nat.mul_right_comm]

/-- On a grid that is fine enough, the step below the value lies in the interval. -/
theorem holdsDecimal_stepsBelow (hlow : i.low < i.value) (hhigh : i.value < i.high)
    (hfine : (gridStep e).1 ≤ (i.value - i.low) * (gridStep e).2) :
    i.HoldsDecimal (i.stepsBelow e) e := by
  obtain ⟨hstep, hdenominator⟩ := gridStep_pos e
  rw [← contains_gridStep_iff, contains, stepsBelow]
  generalize (gridStep e).1 = a at *
  generalize (gridStep e).2 = b at *
  have hbelow : i.value * b / a * a ≤ i.value * b := Nat.div_mul_le_self ..
  have habove : i.value * b < i.value * b / a * a + a := by
    have hmod := Nat.mod_lt (i.value * b) hstep
    have hdiv := Nat.div_add_mod' (i.value * b) a
    omega
  have hhigh : i.value * b < i.high * b := Nat.mul_lt_mul_of_pos_right hhigh hdenominator
  have hvalue : (i.value - i.low) * b + i.low * b = i.value * b := by
    rw [← Nat.add_mul, Nat.sub_add_cancel hlow.le]
  split
  · simp only [Bool.and_eq_true, decide_eq_true_eq]
    omega
  · simp only [Bool.and_eq_true, decide_eq_true_eq]
    omega

end Interval

/-- The first digit of a number stands where `leadingExponent` says. -/
theorem gridStep_leadingExponent_le {v : Nat} (hv : 0 < v) :
    (gridStep (leadingExponent v)).1 ≤ v * (gridStep (leadingExponent v)).2 := by
  have hunit := unitQuarters_pos
  simp only [leadingExponent, gridStep, Nat.pow_eq]
  generalize unitQuarters = u at *
  split
  · next hle =>
    have hpow := Text.pow_le_of_digits (Nat.div_pos hle hunit).ne'
    have hpositive : 0 < (Text.digits (v / u)).length := Nat.length_toDigits_pos
    have hnonneg : (-((Text.digits (v / u)).length - 1 : Int)).toNat = 0 := by omega
    have hexponent : ((Text.digits (v / u)).length - 1 : Int).toNat =
        (Text.digits (v / u)).length - 1 := by omega
    rw [hnonneg, hexponent, Nat.pow_zero, Nat.mul_one]
    exact (Nat.le_div_iff_mul_le hunit).1 hpow
  · have hpow := Text.lt_pow_of_digits ((u - 1) / v)
    rw [Nat.div_lt_iff_lt_mul hv] at hpow
    have hnegative : (-((Text.digits ((u - 1) / v)).length : Int)).toNat = 0 := by omega
    have hexponent : (- -((Text.digits ((u - 1) / v)).length : Int)).toNat =
        (Text.digits ((u - 1) / v)).length := by omega
    rw [hnegative, hexponent, Nat.pow_zero, Nat.one_mul, Nat.mul_comm]
    omega

/-- The interval of a double that is not zero has room on both sides, and does not reach zero. Its
lower part is not small next to the double. -/
theorem interval_bounds (hx : x.magnitude ≠ 0) :
    0 < x.interval.low ∧ x.interval.low < x.interval.value ∧
      x.interval.value < x.interval.high ∧
      x.interval.value < 2 ^ 55 * (x.interval.value - x.interval.low) := by
  have hspacing := x.spacing_pos
  have hpos : 1 * x.spacing ≤ x.significand * x.spacing := by
    refine Nat.mul_le_mul_right _ (Nat.one_le_iff_ne_zero.2 fun hzero => hx ?_)
    rw [magnitude_eq, hzero, Nat.zero_mul]
  have hlarge : x.significand * x.spacing < 2 ^ 53 * x.spacing :=
    Nat.mul_lt_mul_of_pos_right x.significand_lt hspacing
  simp only [interval, gap_eq, magnitude_eq]
  generalize x.significand * x.spacing = v at *
  generalize x.spacing = t at *
  split <;> omega

/-- **The shortest decimal of a double that is not zero lies in its interval.** -/
theorem exists_shortest (tie : Tie) (hx : x.magnitude ≠ 0) :
    ∃ k e, x.shortest tie = scientific k e ∧ x.interval.HoldsDecimal k e := by
  obtain ⟨hzero, hlow, hhigh, hroom⟩ := interval_bounds hx
  refine Interval.exists_search (Interval.holdsDecimal_stepsBelow hlow hhigh ?_)
  have hlead := gridStep_leadingExponent_le (hzero.trans hlow)
  have hgrid := Interval.gridStep_sub (leadingExponent x.interval.value) 17
  have hpositive := (Interval.gridStep_pos (leadingExponent x.interval.value)).2
  generalize leadingExponent x.interval.value = e at *
  generalize x.interval.value = v at *
  generalize x.interval.low = l at *
  -- ten to the power of seventeen is more than the interval is finer than the double
  have hten : v ≤ 10 ^ 17 * (v - l) := by omega
  refine Nat.le_of_mul_le_mul_right (c := 10 ^ 17 * (gridStep e).2) ?_
    (Nat.mul_pos (by decide) hpositive)
  calc (gridStep (e - 17)).1 * (10 ^ 17 * (gridStep e).2)
      = (gridStep e).1 * (gridStep (e - 17)).2 := by rw [← Nat.mul_assoc]; exact hgrid
    _ ≤ v * (gridStep e).2 * (gridStep (e - 17)).2 := Nat.mul_le_mul_right _ hlead
    _ ≤ 10 ^ 17 * (v - l) * (gridStep e).2 * (gridStep (e - 17)).2 :=
        Nat.mul_le_mul_right _ (Nat.mul_le_mul_right _ hten)
    _ = (v - l) * (gridStep (e - 17)).2 * (10 ^ 17 * (gridStep e).2) := by ring

/-! ## Reading a decimal -/

/-- A decimal is less than the power of ten at the place before its first digit. -/
theorem decimal_lt {j : Nat} (h : ((Text.digits m).length : Int) + e ≤ -j) :
    m * Nat.pow 10 e.toNat * Nat.pow 10 j < Nat.pow 10 (-e).toNat := by
  simp only [Nat.pow_eq]
  calc m * 10 ^ e.toNat * 10 ^ j
      < 10 ^ (Text.digits m).length * 10 ^ e.toNat * 10 ^ j :=
        Nat.mul_lt_mul_of_pos_right (Nat.mul_lt_mul_of_pos_right (Text.lt_pow_of_digits m)
          (Nat.pow_pos (by decide))) (Nat.pow_pos (by decide))
    _ = 10 ^ ((Text.digits m).length + e.toNat + j) := by rw [Nat.pow_add, Nat.pow_add]
    _ ≤ 10 ^ (-e).toNat := Nat.pow_le_pow_right (by decide) (by omega)

/-- A decimal is at least the power of ten at the place of its first digit. -/
theorem le_decimal {j : Nat} (hm : m ≠ 0) (h : (j : Int) < ((Text.digits m).length : Int) + e) :
    Nat.pow 10 j * Nat.pow 10 (-e).toNat ≤ m * Nat.pow 10 e.toNat := by
  simp only [Nat.pow_eq]
  calc 10 ^ j * 10 ^ (-e).toNat = 10 ^ (j + (-e).toNat) := by rw [Nat.pow_add]
    _ ≤ 10 ^ ((Text.digits m).length - 1 + e.toNat) :=
        Nat.pow_le_pow_right (by decide) (by omega)
    _ = 10 ^ ((Text.digits m).length - 1) * 10 ^ e.toNat := Nat.pow_add ..
    _ ≤ m * 10 ^ e.toNat := Nat.mul_le_mul_right _ (Text.pow_le_of_digits hm)

theorem ne_zero_of_holdsDecimal (hx : x.magnitude ≠ 0) (h : x.interval.HoldsDecimal m e) :
    m ≠ 0 := by
  rintro rfl
  have hlow := h.le.1
  rw [Nat.zero_mul, Nat.zero_mul] at hlow
  have hpositive : 0 < x.interval.low * Nat.pow 10 (-e).toNat :=
    Nat.mul_pos (interval_bounds hx).1 (Nat.pow_pos (by decide))
  omega

/-- A decimal whose size is too small to be told from zero lies in no interval of a double. -/
theorem size_ge {j : Nat} (hj : unitQuarters ≤ Nat.pow 10 j) (hx : x.magnitude ≠ 0)
    (h : x.interval.HoldsDecimal m e) : -j < ((Text.digits m).length : Int) + e := by
  by_contra hsmall
  have hlt : m * Nat.pow 10 e.toNat * Nat.pow 10 j < Nat.pow 10 (-e).toNat :=
    decimal_lt (by omega)
  have hle : Nat.pow 10 (-e).toNat ≤ m * Nat.pow 10 e.toNat * Nat.pow 10 j :=
    calc Nat.pow 10 (-e).toNat ≤ x.interval.low * Nat.pow 10 (-e).toNat :=
          Nat.le_mul_of_pos_left _ (interval_bounds hx).1
      _ ≤ m * Nat.pow 10 e.toNat * unitQuarters := h.le.1
      _ ≤ m * Nat.pow 10 e.toNat * Nat.pow 10 j := Nat.mul_le_mul_left _ hj
  omega

/-- A decimal whose size is too large lies above the interval. -/
theorem size_le {j : Nat} (hj : x.interval.high < Nat.pow 10 j * unitQuarters)
    (hx : x.magnitude ≠ 0) (h : x.interval.HoldsDecimal m e) :
    ((Text.digits m).length : Int) + e ≤ j := by
  by_contra hlarge
  have hle : Nat.pow 10 j * Nat.pow 10 (-e).toNat ≤ m * Nat.pow 10 e.toNat :=
    le_decimal (ne_zero_of_holdsDecimal hx h) (by omega)
  have hpositive : 0 < Nat.pow 10 (-e).toNat := Nat.pow_pos (by decide)
  refine absurd (Nat.le_of_mul_le_mul_right ?_ hpositive) (Nat.not_le.2 hj)
  calc Nat.pow 10 j * unitQuarters * Nat.pow 10 (-e).toNat
      = Nat.pow 10 j * Nat.pow 10 (-e).toNat * unitQuarters := Nat.mul_right_comm ..
    _ ≤ m * Nat.pow 10 e.toNat * unitQuarters := Nat.mul_le_mul_right _ hle
    _ ≤ x.interval.high * Nat.pow 10 (-e).toNat := h.le.2

theorem high_le {j : Nat} (h : x.exponent - 1 ≤ j) : x.interval.high ≤ 2 ^ 56 * Nat.pow 2 j := by
  have hspacing := spacing_le h
  have hlarge : x.significand * x.spacing ≤ 2 ^ 53 * x.spacing :=
    Nat.mul_le_mul_right _ x.significand_lt.le
  simp only [interval, gap_eq, magnitude_eq]
  omega

/-- The interval of a finite double ends below the numbers with more digits than any double. -/
theorem high_lt (hfinite : x.isFinite = true) :
    x.interval.high < Nat.pow 10 310 * unitQuarters := by
  have hexponent := of_decide_eq_true hfinite
  exact Nat.lt_of_le_of_lt (@high_le x 2045 (by omega)) (by decide +kernel)

/-- **A decimal in the interval of a finite double is read as this double.** -/
theorem ofDecimal?_eq (hfinite : x.isFinite = true) (hx : x.magnitude ≠ 0)
    (h : x.interval.HoldsDecimal m e) : ofDecimal? x.negative m e = some x := by
  have hsmall := @size_ge m e x 330 (by decide +kernel) hx h
  have hlarge := size_le (high_lt hfinite) hx h
  have hm := ne_zero_of_holdsDecimal hx h
  have hbits : nearestBits (m * Nat.pow 10 e.toNat) (Nat.pow 10 (-e).toNat) = x.magnitudeBits :=
    nearestBits_eq (Nat.pow_pos (by decide)) h
  have hlt : x.magnitudeBits < infinityBits := by
    have hexponent := of_decide_eq_true hfinite
    have hfraction := x.fraction_lt
    rw [magnitudeBits, infinityBits, pow_two_52]
    rw [pow_two_52] at hfraction
    omega
  unfold ofDecimal?
  simp only
  rw [if_neg (by omega), if_neg (by omega), hbits, if_pos hlt, ofSign_magnitudeBits]

theorem isNormal_shortest (tie : Tie) (hx : x.magnitude ≠ 0) : (x.shortest tie).IsNormal := by
  obtain ⟨k, e, hshortest, h⟩ := exists_shortest tie hx
  rw [hshortest]
  exact isNormal_scientific (ne_zero_of_holdsDecimal hx h) e

/-- The interval of a double that is not zero has its shortest decimal. -/
theorem holdsDecimal_shortest (tie : Tie) (hx : x.magnitude ≠ 0) :
    x.interval.HoldsDecimal (x.shortest tie).significand (x.shortest tie).scale := by
  obtain ⟨k, e, hshortest, h⟩ := exists_shortest tie hx
  obtain ⟨j, hk, he⟩ := exists_shift k e
  rw [hshortest, ← Interval.holdsDecimal_shift (j := j), hk, he]
  exact h

end Double

end BoundSql
