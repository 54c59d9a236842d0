import BoundSql.Proofs.Filter.Refusal
import BoundSql.Proofs.Lexeme.Quotation
import BoundSql.Proofs.Lexeme.Screening
import BoundSql.Proofs.Lexeme.Splice

/-!
# The lexemes of the text of a filter

The text of a filter is cut into blanks, code and columns between double quotes, and nothing else:
it has no comment, no semicolon and no string literal, and the columns are those of fields of the
document. The text is made of `ClauseText`, and each step of the lexer takes a plain lexeme off such
a text and leaves one (`exists_first_of_clauseText`); by induction on the lexemes it is cut up as a
whole (`exists_lexemes_of_clauseText`). What else is known of the text is read off its characters:
they are ASCII, and its parentheses are in balance.
-/

namespace BoundSql

open Lexeme

/-! ## Plain lexemes -/

/-- A lexeme of the text of a clause: blanks, code, or one of some columns between its quotes. -/
inductive Lexeme.IsPlain (P : Identifier → Prop) : LexemeKind → List Char → Prop
  | blanks {chars : List Char} : (∀ c ∈ chars, Text.isPlainBlank c = true) →
      IsPlain P .trivia chars
  | code {chars : List Char} : IsPlain P .code chars
  | column {i : Identifier} : P i → IsPlain P .quotedIdentifier i.quoted.toList

/-- A column in front of a text is the first lexeme: the quotation of its name, in which nothing is
to be doubled. -/
theorem Lexeme.first_quoted (i : Identifier) {s : List Char} (hs : s.head? ≠ some '"') :
    first '"' (i.name.toList ++ '"' :: s) =
      .ok { kind := .quotedIdentifier, chars := i.quoted.toList, rest := s } := by
  have hname : '"' ∉ i.name.toList := fun h => absurd (i.isNameChar_of_mem h) (by decide)
  have hquotation : quotation '"' i.name.toList = i.quoted.toList := by
    rw [quotation, doubled_eq_self hname, i.toList_quoted]
  refine (first_eq_ok_iff_of_isQuote (.inr (.inl rfl))).2 ⟨i.name.toList, ?_, ?_, hs⟩
  · rw [hquotation]
    rfl
  · rw [hquotation, i.toList_quoted]
    simp

/-! ## The lexemes of clauses -/

variable {P : Identifier → Prop} {s : List Char}

/-- The characters of clauses outside quotes are spaces and characters of code. -/
theorem eq_space_or_not_endsCode {c : Char} (h : isWordChar c = true ∨ c = '(' ∨ c = ')') :
    c = ' ' ∨ endsCode c = false := by
  rcases h with h | rfl | rfl
  · rcases isWordChar_iff.1 h with h | h
    · exact .inr (Sql.endsCode_of_isNameChar h)
    · simp only [List.mem_cons, List.not_mem_nil, or_false] at h
      rcases h with rfl | rfl | rfl | rfl | rfl | rfl | rfl <;> decide
  · exact .inr (by decide)
  · exact .inr (by decide)

/-- The first lexeme of a text of clauses is plain, and behind it there is text of clauses. -/
theorem exists_first_of_clauseText (h : ClauseText P s) {c : Char} {t : List Char}
    (hs : s = c :: t) :
    ∃ cut, first c t = .ok cut ∧ IsPlain P cut.kind cut.chars ∧ ClauseText P cut.rest := by
  cases h with
  | nil => cases hs
  | char hc ht =>
    cases hs
    rcases eq_space_or_not_endsCode hc with rfl | hcode
    · refine ⟨run .trivia Text.isPlainBlank [' '] t, rfl, .blanks ?_, ht.dropWhile (by decide)⟩
      rw [run, List.singleton_append, List.forall_mem_cons]
      exact ⟨rfl, fun d hd => List.mem_takeWhile_imp hd⟩
    · exact ⟨_, first_of_not_endsCode hcode t, .code, ht.dropWhile (by decide)⟩
  | @column i s hi hquote h =>
    rw [i.toList_quoted, List.cons_append, List.append_assoc, List.singleton_append] at hs
    cases hs
    exact ⟨_, first_quoted i hquote, .column hi, h⟩

/-- A text of clauses is cut into plain lexemes. -/
theorem exists_lexemesFrom_of_clauseText (found : List Lexeme) (offset : Nat)
    (h : ClauseText P s) :
    ∃ new, lexemesFrom found offset s = .ok (found.reverse ++ new) ∧
      ∀ l ∈ new, IsPlain P l.kind l.chars := by
  fun_induction lexemesFrom found offset s with
  | case1 => exact ⟨[], by simp, by simp⟩
  | case2 found offset c s e hfirst =>
    obtain ⟨cut, hcut, -⟩ := exists_first_of_clauseText h rfl
    rw [hfirst] at hcut
    cases hcut
  | case3 found offset c s cut hfirst _ ih =>
    obtain ⟨cut', hcut, hplain, hrest⟩ := exists_first_of_clauseText h rfl
    rw [hfirst] at hcut
    cases hcut
    obtain ⟨new, hnew, hall⟩ := ih hrest
    refine ⟨{ kind := cut.kind, chars := cut.chars, offset } :: new, ?_, ?_⟩
    · rw [hnew]
      simp
    · exact List.forall_mem_cons.2 ⟨hplain, hall⟩

theorem exists_lexemes_of_clauseText {sql : String} (h : ClauseText P sql.toList) :
    ∃ ls, lexemes sql = .ok ls ∧ ∀ l ∈ ls, IsPlain P l.kind l.chars := by
  obtain ⟨ls, hls, hplain⟩ := exists_lexemesFrom_of_clauseText [] 0 h
  rw [List.reverse_nil, List.nil_append] at hls
  exact ⟨ls, by rw [lexemes, hls], hplain⟩

/-! ## The characters of clauses -/

theorem toNat_lt_of_isNameChar {c : Char} (h : isNameChar c = true) : c.toNat < 128 := by
  have hranges := isNameChar_iff_toNat.1 h
  omega

/-- The text of clauses is ASCII. -/
theorem toNat_lt_of_clauseText (h : ClauseText P s) : ∀ c ∈ s, c.toNat < 128 := by
  induction h with
  | nil => exact nofun
  | @char c s hc _ ih =>
    refine List.forall_mem_cons.2 ⟨?_, ih⟩
    rcases hc with hc | rfl | rfl
    · rcases isWordChar_iff.1 hc with hc | hc
      · exact toNat_lt_of_isNameChar hc
      · simp only [List.mem_cons, List.not_mem_nil, or_false] at hc
        rcases hc with rfl | rfl | rfl | rfl | rfl | rfl | rfl <;> decide
    · decide
    · decide
  | @column i s _ _ _ ih =>
    have hname : ∀ c ∈ i.name.toList, c.toNat < 128 := fun c hc =>
      toNat_lt_of_isNameChar (i.isNameChar_of_mem hc)
    rw [i.toList_quoted]
    simp only [List.cons_append, List.append_assoc, List.nil_append, List.forall_mem_cons,
      List.forall_mem_append]
    exact ⟨by decide, hname, by decide, ih⟩

/-- Only code has question marks in it. -/
theorem Lexeme.IsPlain.count_eq {l : Lexeme} (h : IsPlain P l.kind l.chars) :
    l.chars.count '?' = l.placeholders := by
  obtain ⟨kind, chars, offset⟩ := l
  cases h with
  | blanks hblank =>
    exact List.count_eq_zero.2 fun hmem => absurd (hblank _ hmem) (by decide)
  | code => rfl
  | column _ => exact List.count_eq_zero.2 (Identifier.not_mem_quoted _ rfl (by decide))

theorem count_flatMap_chars {ls : List Lexeme} (h : ∀ l ∈ ls, IsPlain P l.kind l.chars) :
    (ls.flatMap Lexeme.chars).count '?' = placeholderCount ls := by
  induction ls with
  | nil => rfl
  | cons l ls ih =>
    rw [List.forall_mem_cons] at h
    rw [List.flatMap_cons, List.count_append, ih h.2, h.1.count_eq]
    rfl

/-- All question marks of clauses are placeholders. -/
theorem countPlaceholders_of_clauseText {sql : String} (h : ClauseText P sql.toList) :
    countPlaceholders sql = .ok (sql.toList.count '?') := by
  obtain ⟨ls, hls, hplain⟩ := exists_lexemes_of_clauseText h
  rw [countPlaceholders, hls, ← (agree_lexemes hls).flatMap_chars, count_flatMap_chars hplain]
  rfl

/-! ## The text of a filter -/

/-- **The shape of the text of a filter.** It is cut into blanks, code and columns between double
quotes, which are columns of fields of the document; so many of its characters are question marks as
it has placeholders and as there are bindings; it is ASCII; and it stands between two parentheses
that are each other's: the text is at no depth only at its ends. -/
theorem compile_shape {limits : Limits} {v : Value} {f : Fragment}
    (h : compile limits v = .ok f) :
    (∃ ls, lexemes f.text = .ok ls ∧ ∀ l ∈ ls, IsPlain v.HoldsColumn l.kind l.chars) ∧
    f.text.toList.count '?' = f.bindings.length ∧
    countPlaceholders f.text = .ok f.bindings.length ∧
    (∀ c ∈ f.text.toList, c.toNat < 128) ∧
    f.text.toList.head? = some '(' ∧ f.text.toList.getLast? = some ')' ∧
    ∀ p, p <+: f.text.toList →
      0 ≤ nesting p ∧ (nesting p = 0 ↔ p = [] ∨ p = f.text.toList) := by
  have hinert := inert_compile h
  rcases compile_cases limits v with ⟨clause, bindings, hholds, hok⟩ | ⟨e, -, herror⟩
  · rw [hok] at h
    cases h
    have hpiece : Piece v.HoldsColumn clause.text.toList :=
      clause.piece_text.mono fun i ⟨t, ht, hi⟩ => hi ▸ hholds t ht
    have htext : ("(" ++ clause.text ++ ")").toList = '(' :: clause.text.toList ++ [')'] := by simp
    have hshape := hpiece.parens.text
    have hcount := countPlaceholders_of_clauseText hshape
    have hparity : countPlaceholders ("(" ++ clause.text ++ ")") = .ok bindings.length := by
      rw [countPlaceholders_eq_readMarks, readMarks, hinert.endRegion_eq]
      exact congrArg Except.ok hinert.placeholderMarks_eq
    refine ⟨exists_lexemes_of_clauseText hshape, ?_, hparity, toNat_lt_of_clauseText hshape,
      hinert.opens, hinert.closes, fun p hp => ?_⟩
    · rw [hparity, Except.ok.injEq] at hcount
      exact hcount.symm
    · rw [htext] at hp ⊢
      exact hpiece.balanced.nesting_parens hp
  · rw [herror] at h
    cases h

/-- A place in a column that is tested twice, and a list below an alias. -/
theorem compile_shape_of_place_and_list :
    ∃ f, compile {} (.object [("meta.x", .object [("gt", .int 1), ("ne", .null)]),
        ("$t", .object [("id", .object [("in", .array [.text "?", .null])])])]) = .ok f ∧
      f.text = "(((json_extract(\"meta\", ?) > ? AND json_extract(\"meta\", ?) IS NOT NULL)" ++
        " AND (t.\"id\" IN (?,?))))" ∧
      f.bindings = [.text "$.x", .integer 1, .text "$.x", .text "?", .null] ∧
      countPlaceholders f.text = .ok f.bindings.length ∧
      ∀ p, p <+: f.text.toList → nesting p = 0 → p = [] ∨ p = f.text.toList := by
  have h : compile {} (.object [("meta.x", .object [("gt", .int 1), ("ne", .null)]),
      ("$t", .object [("id", .object [("in", .array [.text "?", .null])])])]) = .ok
        { text := "(((json_extract(\"meta\", ?) > ? AND json_extract(\"meta\", ?) IS NOT NULL)" ++
            " AND (t.\"id\" IN (?,?))))"
          bindings := [.text "$.x", .integer 1, .text "$.x", .text "?", .null] } := by
    decide +kernel
  obtain ⟨-, -, hcount, -, -, -, hdeep⟩ := compile_shape h
  exact ⟨_, h, rfl, rfl, hcount, fun p hp => (hdeep p hp).2.1⟩

end BoundSql
