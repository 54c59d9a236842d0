import BoundSql.Proofs.Lexeme.Spans
import Mathlib.Logic.ExistsUnique

/-!
# Quotations

A text is quoted by writing each of its delimiters twice and one more at either end
(`Lexeme.quotation`). The lexer undoes this. A quotation is the first lexeme of every text that
begins with it, as long as the delimiter does not come again behind it, and a first lexeme that
begins with a delimiter is the quotation of exactly one text (`Lexeme.isFirst_quotation`).

Both halves are read off `closeQuoted_eq_some_iff`, which says where a quotation is closed: the
delimiters in front of that place come in pairs, and the one there has no other behind it.
-/

namespace BoundSql

namespace Lexeme

/-- A text with each of its delimiters written twice. -/
def doubled (d : Char) : List Char → List Char
  | [] => []
  | c :: x => if c = d then d :: d :: doubled d x else c :: doubled d x

/-- A text between two delimiters, with each of its own delimiters written twice. -/
def quotation (d : Char) (x : List Char) : List Char :=
  d :: (doubled d x ++ [d])

/-- A lexeme, with the text after it, is what the lexer takes first from a text. -/
def Cut.IsFirst (cut : Cut) (text : List Char) : Prop :=
  ∃ c s, text = c :: s ∧ first c s = .ok cut

variable {d : Char}

/-! ## Doubled delimiters -/

@[simp] theorem doubled_cons_self (d : Char) (x : List Char) :
    doubled d (d :: x) = d :: d :: doubled d x := by
  rw [doubled, if_pos rfl]

theorem doubled_cons_of_ne {c : Char} (h : c ≠ d) (x : List Char) :
    doubled d (c :: x) = c :: doubled d x := by
  rw [doubled, if_neg h]

/-- A text without delimiters is its own doubling. -/
theorem doubled_eq_self {x : List Char} (h : d ∉ x) : doubled d x = x := by
  induction x with
  | nil => rfl
  | cons c x ih =>
    rw [List.mem_cons, not_or] at h
    rw [doubled_cons_of_ne (Ne.symm h.1), ih h.2]

/-- Doubling keeps the first character, so it loses nothing. -/
theorem doubled_inj {x y : List Char} (h : doubled d x = doubled d y) : x = y := by
  induction x generalizing y with
  | nil => cases y <;> grind [doubled]
  | cons c x ih =>
    cases y with
    | nil => grind [doubled]
    | cons e y =>
      obtain rfl : c = e := by grind [doubled]
      by_cases hc : c = d
      · rw [hc, doubled_cons_self, doubled_cons_self] at h
        rw [ih (List.cons.inj (List.cons.inj h).2).2]
      · rw [doubled_cons_of_ne hc, doubled_cons_of_ne hc] at h
        rw [ih (List.cons.inj h).2]

theorem quotation_inj {x y : List Char} (h : quotation d x = quotation d y) : x = y :=
  doubled_inj (List.append_cancel_right (List.cons.inj h).2)

/-! ## Where a quotation is closed -/

/-- A character that is no delimiter never closes a quotation. -/
theorem closeQuoted_cons_of_ne {c : Char} (h : c ≠ d) (taken s : List Char) :
    closeQuoted d taken (c :: s) = closeQuoted d (c :: taken) s := by
  cases s with
  | nil => simp [closeQuoted, h]
  | cons e s => rw [closeQuoted, if_neg h]

/-- A quotation is closed behind a text whose delimiters are doubled. -/
theorem closeQuoted_doubled {rest : List Char} (hrest : rest.head? ≠ some d)
    (taken x : List Char) :
    closeQuoted d taken (doubled d x ++ d :: rest) =
      some (taken.reverse ++ (doubled d x ++ [d]), rest) := by
  induction x generalizing taken with
  | nil =>
    cases rest with
    | nil => simp [doubled, closeQuoted]
    | cons e rest =>
      have he : e ≠ d := fun h => hrest (congrArg some h)
      simp [doubled, closeQuoted, he]
  | cons c x ih =>
    by_cases hc : c = d
    · subst hc
      rw [doubled_cons_self, List.cons_append, List.cons_append, closeQuoted, if_pos rfl,
        if_pos rfl, ih]
      simp
    · rw [doubled_cons_of_ne hc, List.cons_append, closeQuoted_cons_of_ne hc, ih]
      simp

/-- **Where a quotation is closed**: behind the doubling of a text, at a delimiter that is not
doubled itself. -/
theorem closeQuoted_eq_some_iff {taken s chars rest : List Char} :
    closeQuoted d taken s = some (chars, rest) ↔
      ∃ x, s = doubled d x ++ d :: rest ∧ chars = taken.reverse ++ (doubled d x ++ [d]) ∧
        rest.head? ≠ some d := by
  constructor
  · intro h
    fun_induction closeQuoted d taken s with
    | case1 => cases h
    | case2 taken =>
      cases h
      exact ⟨[], rfl, by simp [doubled], by simp⟩
    | case3 => cases h
    | case4 taken s ih =>
      obtain ⟨x, hs, hchars, hrest⟩ := ih h
      exact ⟨d :: x, by simp [hs], by simp [hchars], hrest⟩
    | case5 taken e s he =>
      cases h
      exact ⟨[], rfl, by simp [doubled], fun hhead => he (Option.some.inj hhead)⟩
    | case6 taken c e s hc ih =>
      obtain ⟨x, hs, hchars, hrest⟩ := ih h
      exact ⟨c :: x, by simp [doubled_cons_of_ne hc, hs], by simp [doubled_cons_of_ne hc, hchars],
        hrest⟩
  · rintro ⟨x, rfl, rfl, hrest⟩
    exact closeQuoted_doubled hrest taken x

/-! ## The first lexeme -/

/-- A text that begins with a delimiter begins with a quotation, if it is closed. -/
theorem first_of_isQuote (hd : IsQuote d) (s : List Char) :
    ∃ construct, first d s =
      enclosed (Region.quotedKind d) construct (closeQuoted d [d] s) := by
  rcases hd with rfl | rfl | rfl
  · exact ⟨.stringLiteral, rfl⟩
  · exact ⟨.quotedIdentifier, rfl⟩
  · exact ⟨.quotedIdentifier, rfl⟩

/-- What is taken from a text that begins with a delimiter. -/
theorem first_eq_ok_iff_of_isQuote (hd : IsQuote d) {s : List Char} {cut : Cut} :
    first d s = .ok cut ↔
      ∃ x, cut = { kind := Region.quotedKind d, chars := quotation d x, rest := cut.rest } ∧
        d :: s = quotation d x ++ cut.rest ∧ cut.rest.head? ≠ some d := by
  obtain ⟨construct, hfirst⟩ := first_of_isQuote hd s
  obtain ⟨kind, chars, rest⟩ := cut
  have htext : ∀ x, d :: s = quotation d x ++ rest ↔ s = doubled d x ++ d :: rest := fun x => by
    rw [quotation, List.cons_append, List.append_assoc, List.singleton_append, List.cons.injEq,
      and_iff_right rfl]
  simp only [hfirst, enclosed_eq_ok_iff, closeQuoted_eq_some_iff, Cut.mk.injEq, and_true, htext]
  constructor
  · rintro ⟨rfl, x, hs, rfl, hrest⟩
    exact ⟨x, ⟨rfl, rfl⟩, hs, hrest⟩
  · rintro ⟨x, ⟨rfl, rfl⟩, hs, hrest⟩
    exact ⟨rfl, x, hs, rfl, hrest⟩

/-- **The lexer undoes quoting.** In front of a text that does not begin with the delimiter, the
quotation of any text is the first lexeme, whole and with nothing else: a string literal between
single quotes, a quoted identifier between others. And whenever the first lexeme of a text begins
with the delimiter, it is the quotation of exactly one text, and the delimiter does not come again
behind it. -/
theorem isFirst_quotation (hd : IsQuote d) :
    (∀ x rest, rest.head? ≠ some d →
      Cut.IsFirst { kind := Region.quotedKind d, chars := quotation d x, rest }
        (quotation d x ++ rest)) ∧
    ∀ text cut, Cut.IsFirst cut text → cut.chars.head? = some d →
      cut.kind = Region.quotedKind d ∧ text = cut.chars ++ cut.rest ∧
        cut.rest.head? ≠ some d ∧ ∃! x, cut.chars = quotation d x := by
  constructor
  · intro x rest hrest
    refine ⟨d, doubled d x ++ [d] ++ rest, rfl, (first_eq_ok_iff_of_isQuote hd).2 ?_⟩
    exact ⟨x, rfl, rfl, hrest⟩
  · rintro text cut ⟨c, s, rfl, hfirst⟩ hhead
    obtain ⟨more, r, hchars, -⟩ : cut.IsHead c s := by
      have hread := reads_first c s
      rwa [hfirst] at hread
    obtain rfl : c = d := by
      rw [hchars, List.head?_cons] at hhead
      exact Option.some.inj hhead
    obtain ⟨x, hcut, htext, hrest⟩ := (first_eq_ok_iff_of_isQuote hd).1 hfirst
    have hx : cut.chars = quotation c x := by rw [hcut]
    refine ⟨by rw [hcut], by rw [hx, htext], hrest, x, hx, fun y hy => ?_⟩
    exact quotation_inj (hy.symm.trans hx)

/-- Three delimiters in a row at either end, in front of another delimiter; and a literal that is
read back. -/
theorem isFirst_quotation_of_quotes :
    IsQuote '\'' ∧ quotation '\'' "'a'".toList = "'''a'''".toList ∧
      Cut.IsFirst { kind := .stringLiteral, chars := "'''a'''".toList, rest := "\"';".toList }
        "'''a'''\"';".toList ∧
      ∃! x, "'''a'''".toList = quotation '\'' x := by
  have hd : IsQuote '\'' := .inl rfl
  have hquotation : quotation '\'' "'a'".toList = "'''a'''".toList := by decide
  obtain ⟨htakes, hback⟩ := isFirst_quotation hd
  have hfirst := htakes "'a'".toList "\"';".toList (by decide)
  rw [hquotation] at hfirst
  exact ⟨hd, hquotation, hfirst, (hback _ _ hfirst rfl).2.2.2⟩

end Lexeme

end BoundSql
