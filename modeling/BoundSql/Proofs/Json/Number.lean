import BoundSql.Proofs.Double.Shortest
import BoundSql.Proofs.Json.Numeral

/-!
# Doubles in JSON text

A finite double is written as its shortest decimal, and is read from this text again
(`scalarOfWord_number`). Whichever notation the decimal is in, its text is a number in the sense of
JSON that has the digits and the power of ten of the decimal (`Scientific.isNumber_text`), and the
shortest decimal of a double lies in the interval of the numbers that are read as it.
-/

namespace BoundSql

/-! ## What a number denotes -/

namespace Json.Numeral

variable {x : Numeral} {y : Double} {m : Nat} {e : Int}

/-- Whether a number writes the decimal `m · 10 ^ e`, with a point or an exponent. There can be more
zeros at the end of its digits than at the end of `m`. -/
structure Denotes (x : Numeral) (m : Nat) (e : Int) : Prop where
  is_real : x.fraction.isSome = true ∨ x.exponent.isSome = true
  decimal : ∃ j : Nat, Text.value 10 (x.whole ++ x.fraction.getD []) = m * 10 ^ j ∧
    x.exponent.getD 0 - (x.fraction.getD []).length = e - j

/-- A number with a point or an exponent is no integer. -/
theorem value?_of_real (h : x.fraction.isSome = true ∨ x.exponent.isSome = true) :
    x.value? = (Double.ofDecimal? x.negative (Text.value 10 (x.whole ++ x.fraction.getD []))
      (x.exponent.getD 0 - (x.fraction.getD []).length)).map .float := by
  obtain ⟨negative, whole, fraction, exponent⟩ := x
  cases fraction with
  | none =>
    cases exponent with
    | none => cases h <;> contradiction
    | some e => rfl
  | some fraction => cases exponent <;> rfl

/-- A number that writes a decimal in the interval of a double is read as this double. -/
theorem value?_eq (hfinite : y.isFinite = true) (hy : y.magnitude ≠ 0)
    (hdecimal : y.interval.HoldsDecimal m e) (hx : x.Denotes m e)
    (hsign : x.negative = y.negative) : x.value? = some (.float y) := by
  obtain ⟨j, hdigits, hscale⟩ := hx.decimal
  have hholds : y.interval.HoldsDecimal (m * 10 ^ j) (e - j) :=
    Double.Interval.holdsDecimal_shift.2 hdecimal
  rw [value?_of_real hx.is_real, hdigits, hscale, hsign,
    Double.ofDecimal?_eq hfinite hy hholds]
  rfl

end Json.Numeral

/-! ## The notations -/

namespace Scientific

open Json

variable {d : Scientific}

/-- Whether a text is, behind a sign, a number that denotes a decimal. -/
def IsNumber (d : Scientific) (negative : Bool) (s : List Char) : Prop :=
  ∃ x : Numeral, x.negative = negative ∧ x.IsProper ∧ x.unsignedChars = s ∧
    x.Denotes d.significand d.scale

theorem isNumber_exponential (hd : d.IsNormal) (negative : Bool) :
    d.IsNumber negative d.exponential := by
  obtain ⟨hdigits, c, ds, hcons, hc⟩ := hd
  rw [hcons, List.forall_mem_cons] at hdigits
  have hwhole : ∀ b ∈ [c], b.isDigit = true := List.forall_mem_singleton.2 hdigits.1
  rw [IsNumber, exponential, significand, scale, hcons]
  cases ds with
  | nil =>
    refine ⟨⟨negative, [c], none, some d.exponent⟩, rfl,
      Numeral.isProper_whole hwhole (Numeral.isWhole_cons hc), rfl, .inr rfl, 0, ?_, ?_⟩
    · rw [Nat.pow_zero, Nat.mul_one]
      rfl
    · simp
  | cons b ds =>
    refine ⟨⟨negative, [c], some (b :: ds), some d.exponent⟩, rfl,
      Numeral.isProper_point hwhole (Numeral.isWhole_cons hc) hdigits.2 (List.cons_ne_nil b ds), ?_,
      .inr rfl, 0, ?_, ?_⟩
    · simp [Numeral.unsignedChars, Numeral.fractionChars, Numeral.exponentChars]
    · rw [Nat.pow_zero, Nat.mul_one]
      rfl
    · simp

/-- A decimal below one is written with a zero in front of its point. -/
theorem isNumber_below_one (hd : d.IsNormal) (hexponent : d.exponent < 0)
    (negative keepsPoint : Bool) :
    d.IsNumber negative (d.positional keepsPoint) := by
  obtain ⟨hdigits, c, ds, hcons, -⟩ := hd
  have hfraction : ∀ b ∈ List.replicate (d.exponent.natAbs - 1) '0' ++ d.digits,
      b.isDigit = true :=
    List.forall_mem_append.2 ⟨fun b hb => List.eq_of_mem_replicate hb ▸ rfl, hdigits⟩
  have hne : List.replicate (d.exponent.natAbs - 1) '0' ++ d.digits ≠ [] := by
    rw [hcons]
    exact List.append_ne_nil_of_right_ne_nil _ (List.cons_ne_nil c ds)
  refine ⟨⟨negative, ['0'], some (List.replicate (d.exponent.natAbs - 1) '0' ++ d.digits), none⟩,
    rfl, Numeral.isProper_point (List.forall_mem_singleton.2 rfl) rfl hfraction hne, ?_,
    .inl rfl, 0, ?_, ?_⟩
  · rw [positional, if_pos hexponent]
    simp [Numeral.unsignedChars, Numeral.fractionChars, Numeral.exponentChars]
  · have hzero : Text.value 10 ['0'] = 0 := rfl
    simp only [Option.getD_some, Text.value_append, Text.value_replicate_zero, hzero, Nat.zero_mul,
      Nat.zero_add, Nat.pow_zero, Nat.mul_one]
    rfl
  · simp only [Option.getD_some, Option.getD_none, List.length_append, List.length_replicate, scale]
    omega

/-- A decimal without digits behind its point is written with zeros up to the point. -/
theorem isNumber_filled (hd : d.IsNormal) {places : Nat} (hplaces : d.exponent = places)
    (hlength : d.digits.length ≤ places + 1) (negative : Bool) :
    d.IsNumber negative
      (d.digits ++ List.replicate (places + 1 - d.digits.length) '0' ++ ['.', '0']) := by
  obtain ⟨hdigits, c, ds, hcons, hc⟩ := hd
  have hwhole : ∀ b ∈ d.digits ++ List.replicate (places + 1 - d.digits.length) '0',
      b.isDigit = true :=
    List.forall_mem_append.2 ⟨hdigits, fun b hb => List.eq_of_mem_replicate hb ▸ rfl⟩
  have hhead : Numeral.isWhole
      (d.digits ++ List.replicate (places + 1 - d.digits.length) '0') = true := by
    rw [hcons]
    exact Numeral.isWhole_cons hc
  refine ⟨⟨negative, d.digits ++ List.replicate (places + 1 - d.digits.length) '0', some ['0'],
    none⟩, rfl, Numeral.isProper_point hwhole hhead (List.forall_mem_singleton.2 rfl)
      (List.cons_ne_nil _ _), ?_, .inl rfl, places + 2 - d.digits.length, ?_, ?_⟩
  · simp [Numeral.unsignedChars, Numeral.fractionChars, Numeral.exponentChars]
  · have hzero : Text.value 10 ['0'] = 0 := rfl
    have hcount : places + 2 - d.digits.length = places + 1 - d.digits.length + 1 := by omega
    simp only [Option.getD_some, Text.value_append, Text.value_replicate_zero, hzero,
      List.length_replicate, List.length_singleton, Nat.add_zero, hcount, Nat.pow_succ, significand,
      Nat.pow_zero, Nat.one_mul, Nat.mul_assoc]
  · simp only [Option.getD_some, Option.getD_none, List.length_singleton, scale]
    omega

/-- A decimal with digits behind its point has the point among its digits. -/
theorem isNumber_split (hd : d.IsNormal) {places : Nat} (hplaces : d.exponent = places)
    (hlength : places + 1 < d.digits.length) (negative : Bool) :
    d.IsNumber negative (d.digits.take (places + 1) ++ '.' :: d.digits.drop (places + 1)) := by
  obtain ⟨hdigits, c, ds, hcons, hc⟩ := hd
  have hhead : Numeral.isWhole (d.digits.take (places + 1)) = true := by
    rw [hcons]
    exact Numeral.isWhole_cons hc
  have hne : d.digits.drop (places + 1) ≠ [] := by
    rw [ne_eq, List.drop_eq_nil_iff]
    omega
  refine ⟨⟨negative, d.digits.take (places + 1), some (d.digits.drop (places + 1)), none⟩, rfl,
    Numeral.isProper_point (fun b hb => hdigits b (List.mem_of_mem_take hb)) hhead
      (fun b hb => hdigits b (List.mem_of_mem_drop hb)) hne, ?_, .inl rfl, 0, ?_, ?_⟩
  · simp [Numeral.unsignedChars, Numeral.fractionChars, Numeral.exponentChars]
  · rw [Option.getD_some, List.take_append_drop, Nat.pow_zero, Nat.mul_one]
    rfl
  · rw [Option.getD_some, List.length_drop, scale, Option.getD_none]
    omega

/-- A decimal that is one at least has digits in front of its point. -/
theorem isNumber_from_one (hd : d.IsNormal) (hexponent : ¬ d.exponent < 0) (negative : Bool) :
    d.IsNumber negative (d.positional true) := by
  rw [positional, if_neg hexponent]
  simp only
  have hplaces : d.exponent = d.exponent.toNat := by omega
  generalize d.exponent.toNat = places at *
  by_cases hlength : d.digits.length ≤ places + 1
  · rw [List.drop_eq_nil_of_le hlength, List.take_of_length_le hlength]
    exact isNumber_filled hd hplaces hlength negative
  · rw [Nat.not_le] at hlength
    have hne : d.digits.drop (places + 1) ≠ [] := by
      rw [ne_eq, List.drop_eq_nil_iff]
      omega
    have hzeros : places + 1 - d.digits.length = 0 := by omega
    rw [hzeros, List.replicate_zero, List.append_nil]
    split
    · next hnil => exact absurd hnil hne
    · exact isNumber_split hd hplaces hlength negative

/-- **The text of a decimal is a number that denotes it**, in any layout that keeps the point. -/
theorem isNumber_text (hd : d.IsNormal) {layout : Layout} (hpoint : layout.keepsPoint = true)
    (negative : Bool) : d.IsNumber negative (d.text layout) := by
  rw [text, hpoint]
  split
  · by_cases hexponent : d.exponent < 0
    · exact isNumber_below_one hd hexponent negative true
    · exact isNumber_from_one hd hexponent negative
  · exact isNumber_exponential hd negative

end Scientific

/-! ## Reading a double -/

namespace Json

variable {x : Double}

/-- A zero is read with its sign. -/
theorem value?_zero (hx : x.magnitude = 0) :
    Numeral.value? ⟨x.negative, ['0'], some ['0'], none⟩ = some (.float x) := by
  have hzero : Double.ofDecimal? x.negative (Text.value 10 ['0', '0']) (-1) =
      some (Double.ofSign x.negative x.magnitudeBits) := by
    rw [Double.magnitudeBits_eq_zero hx, Double.ofDecimal?]
    exact if_pos (.inl rfl)
  rw [Double.ofSign_magnitudeBits] at hzero
  rw [Numeral.value?_of_real (.inl rfl)]
  exact congrArg (Option.map Value.float) hzero

/-- The text of a finite double is a number whose value is the double. -/
theorem exists_numeral_number (hfinite : x.isFinite = true) :
    ∃ n : Numeral, n.IsProper ∧ n.chars = (number x).toList ∧ n.value? = some (.float x) := by
  rw [number, if_pos hfinite, Double.text]
  simp only [String.toList_ofList]
  by_cases hx : x.magnitude = 0
  · rw [if_pos hx]
    exact ⟨⟨x.negative, ['0'], some ['0'], none⟩, Numeral.isProper_point
      (List.forall_mem_singleton.2 rfl) rfl (List.forall_mem_singleton.2 rfl)
      (List.cons_ne_nil _ _), rfl, value?_zero hx⟩
  · have hnormal := Double.isNormal_shortest numberLayout.tie hx
    have hdecimal := Double.holdsDecimal_shortest numberLayout.tie hx
    obtain ⟨n, hsign, hproper, hchars, hdenotes⟩ :=
      @Scientific.isNumber_text _ hnormal numberLayout rfl x.negative
    refine ⟨n, hproper, ?_, Numeral.value?_eq hfinite hx hdecimal hdenotes hsign⟩
    rw [if_neg hx, Numeral.chars, hchars, hsign]

/-- **A finite double is read from the text that it is written as.** -/
theorem scalarOfWord_number (hfinite : x.isFinite = true) :
    scalarOfWord (number x).toList = .ok (.float x) := by
  obtain ⟨n, hproper, hchars, hvalue⟩ := exists_numeral_number hfinite
  rw [← hchars, scalarOfWord_of_ofWord? (Numeral.ofWord?_chars hproper), hvalue]

theorem isWordChar_of_mem_number (hfinite : x.isFinite = true) :
    ∀ c ∈ (number x).toList, isWordChar c = true := by
  obtain ⟨n, hproper, hchars, -⟩ := exists_numeral_number hfinite
  rw [← hchars]
  exact Numeral.isWordChar_of_mem_chars hproper

end Json

end BoundSql
