import BoundSql.Proofs.Json.Cuts
import BoundSql.Proofs.Text.Digits

/-!
# Numbers as JSON writes them

`Numeral.chars` puts the parts of a number together to a word: a sign, digits, a point with further
digits and an exponent. If the parts are what JSON allows (`Numeral.IsProper`), they are read from
the word again (`Numeral.ofWord?_chars`).
-/

namespace BoundSql.Json

variable {c : Char} {s w : List Char} {x : Numeral}

theorem isWordChar_of_isDigit (h : c.isDigit = true) : isWordChar c = true := by
  simp [isWordChar, Char.isAlphanum, h]

/-- A word that is a number is none of the names. -/
theorem scalarOfWord_of_ofWord? (h : Numeral.ofWord? w = some x) :
    scalarOfWord w = match x.value? with
      | none => .error .numberTooLarge
      | some v => .ok v := by
  have hne : ∀ name, Numeral.ofWord? name = none → w ≠ name := by
    rintro name hname rfl
    rw [h] at hname
    cases hname
  rw [scalarOfWord, if_neg (hne _ rfl), if_neg (hne _ rfl), if_neg (hne _ rfl)]
  cases hx : x.value? <;> simp only [h, hx]

namespace Numeral

/-! ## The word of a number -/

/-- The point and the digits behind it, if there are any. -/
def fractionChars : Option (List Char) → List Char
  | none => []
  | some fraction => '.' :: fraction

/-- The exponent behind its letter, if there is one. It always has a sign. -/
def exponentChars : Option Int → List Char
  | none => []
  | some e => 'e' :: (if e < 0 then '-' else '+') :: Text.digits e.natAbs

/-- The characters of a number behind its sign. -/
def unsignedChars (x : Numeral) : List Char :=
  x.whole ++ (fractionChars x.fraction ++ exponentChars x.exponent)

/-- The characters of a number. -/
def chars (x : Numeral) : List Char :=
  (if x.negative then ['-'] else []) ++ x.unsignedChars

/-- Whether the parts of a number are what JSON allows: digits, one at least on each side of a
point, and in front of it a zero stands alone. -/
structure IsProper (x : Numeral) : Prop where
  isDigit_whole : ∀ c ∈ x.whole, c.isDigit = true
  isWhole_whole : isWhole x.whole = true
  isDigit_fraction : ∀ fraction, x.fraction = some fraction → ∀ c ∈ fraction, c.isDigit = true
  fraction_ne_nil : x.fraction ≠ some []

section

variable {negative : Bool} {whole fraction : List Char} {exponent : Option Int}

theorem isProper_whole (hdigits : ∀ c ∈ whole, c.isDigit = true) (hwhole : isWhole whole = true) :
    IsProper ⟨negative, whole, none, exponent⟩ :=
  ⟨hdigits, hwhole, fun _ h => absurd h (Option.some_ne_none _).symm,
    (Option.some_ne_none _).symm⟩

theorem isProper_point (hdigits : ∀ c ∈ whole, c.isDigit = true) (hwhole : isWhole whole = true)
    (hfraction : ∀ c ∈ fraction, c.isDigit = true) (hne : fraction ≠ []) :
    IsProper ⟨negative, whole, some fraction, exponent⟩ := by
  refine ⟨hdigits, hwhole, fun ds hds => ?_, fun hnil => hne (Option.some.inj hnil)⟩
  obtain rfl := Option.some.inj hds
  exact hfraction

end

theorem isWhole_cons {d : Char} {ds : List Char} (hd : d ≠ '0') : isWhole (d :: ds) = true := by
  simp [isWhole, hd]

/-! ## Reading the word -/

theorem magnitude?_digits (n : Nat) : exponent?.magnitude? (Text.digits n) = some n := by
  have hall : (Text.digits n).all Char.isDigit = true :=
    List.all_eq_true.2 fun _ => Text.isDigit_of_mem_digits
  have hempty : (Text.digits n).isEmpty = false := by simpa using Text.digits_ne_nil n
  rw [exponent?.magnitude?, hall, hempty, Text.value_digits]
  rfl

theorem exponent?_sign (e : Int) :
    exponent? ((if e < 0 then '-' else '+') :: Text.digits e.natAbs) = some e := by
  by_cases he : e < 0
  · have habs : -(e.natAbs : Int) = e := by omega
    rw [if_pos he, exponent?, magnitude?_digits]
    exact congrArg some habs
  · have habs : (e.natAbs : Int) = e := by omega
    rw [if_neg he, exponent?, magnitude?_digits]
    exact congrArg some habs

theorem withExponent?_exponentChars (negative : Bool) (whole : List Char)
    (fraction : Option (List Char)) (exponent : Option Int) :
    withExponent? negative whole fraction (exponentChars exponent) =
      some ⟨negative, whole, fraction, exponent⟩ := by
  cases exponent with
  | none => rfl
  | some e => rw [exponentChars, withExponent?, if_pos (.inl rfl), exponent?_sign, Option.map_some]

/-- No exponent goes on with the digits before it. -/
theorem isDigit_head?_exponentChars (exponent : Option Int) :
    ∀ d, (exponentChars exponent).head? = some d → d.isDigit = false := by
  cases exponent with
  | none => nofun
  | some e =>
    rintro d ⟨⟩
    rfl

theorem isDigit_head?_chars (fraction : Option (List Char)) (exponent : Option Int) :
    ∀ d, (fractionChars fraction ++ exponentChars exponent).head? = some d →
      d.isDigit = false := by
  cases fraction with
  | none => exact isDigit_head?_exponentChars exponent
  | some fraction =>
    rintro d ⟨⟩
    rfl

theorem unsigned?_unsignedChars (h : x.IsProper) :
    unsigned? x.negative x.unsignedChars = some x := by
  obtain ⟨negative, whole, fraction, exponent⟩ := x
  obtain ⟨hdigits, hwhole, hfraction, hne⟩ := h
  simp only at hdigits hwhole hfraction hne
  obtain ⟨htake, hdrop⟩ := span_append hdigits (isDigit_head?_chars fraction exponent)
  have hexponent := withExponent?_exponentChars negative whole fraction exponent
  rw [unsigned?, unsignedChars, htake, hdrop, hwhole]
  cases fraction with
  | none =>
    cases exponent with
    | none => rfl
    | some e => exact hexponent
  | some fraction =>
    obtain ⟨htake, hdrop⟩ := span_append (hfraction fraction rfl)
      (isDigit_head?_exponentChars exponent)
    have hempty : fraction.isEmpty = false := by
      rw [← Bool.not_eq_true, List.isEmpty_iff]
      exact fun hnil => hne (hnil ▸ rfl)
    simp only [fractionChars, List.cons_append, htake, hdrop, hempty]
    exact hexponent

/-- **A number is read from its word.** -/
theorem ofWord?_chars (h : x.IsProper) : ofWord? x.chars = some x := by
  have hunsigned := unsigned?_unsignedChars h
  rw [chars]
  cases hsign : x.negative with
  | true =>
    rw [hsign] at hunsigned
    exact hunsigned
  | false =>
    rw [hsign] at hunsigned
    rw [if_neg (by decide), List.nil_append, ofWord?]
    · exact hunsigned
    · intro s hs
      rw [hs] at hunsigned
      cases hunsigned

/-! ## The characters of the word -/

theorem isWordChar_of_mem_fractionChars (h : x.IsProper) :
    ∀ c ∈ fractionChars x.fraction, isWordChar c = true := by
  have hdigit := h.isDigit_fraction
  cases hfraction : x.fraction with
  | none => exact List.forall_mem_nil _
  | some fraction =>
    exact List.forall_mem_cons.2 ⟨rfl, fun c hc => isWordChar_of_isDigit (hdigit _ hfraction c hc)⟩

theorem isWordChar_of_mem_exponentChars (exponent : Option Int) :
    ∀ c ∈ exponentChars exponent, isWordChar c = true := by
  cases exponent with
  | none => exact List.forall_mem_nil _
  | some e =>
    refine List.forall_mem_cons.2 ⟨rfl, List.forall_mem_cons.2 ⟨?_, ?_⟩⟩
    · split <;> rfl
    · exact fun c hc => isWordChar_of_isDigit (Text.isDigit_of_mem_digits hc)

/-- No character of a number ends a word. -/
theorem isWordChar_of_mem_chars (h : x.IsProper) : ∀ c ∈ x.chars, isWordChar c = true := by
  simp only [chars, unsignedChars, List.forall_mem_append]
  refine ⟨?_, ?_, ?_, ?_⟩
  · split
    · exact List.forall_mem_singleton.2 rfl
    · exact List.forall_mem_nil _
  · exact fun c hc => isWordChar_of_isDigit (h.isDigit_whole c hc)
  · exact isWordChar_of_mem_fractionChars h
  · exact isWordChar_of_mem_exponentChars x.exponent

end Numeral

end BoundSql.Json
