import BoundSql.Proofs.Clause.Reading
import BoundSql.Proofs.Filter.Yield
import BoundSql.Proofs.Lexeme.Agree

/-!
# Filters inside SQL text

The text of a filter is put between other pieces of SQL text. It is inert there: whatever stands in
front of it and behind it is cut into lexemes as if the filter were not there, and the filter adds
its placeholders and nothing else (`screening_splice`).

That the text of a filter is inert follows from how it is read. The scanner of `Sql.tokens?` and the
regions go over it in step (`Sql.Mode.region`), and the scanner comes to no semicolon, no comment
and no open quotation.
-/

namespace BoundSql

/-- A text between parentheses that ends in code, ends no statement and has so many placeholders. -/
structure Inert (s : List Char) (placeholders : Nat) : Prop where
  opens : s.head? = some '('
  closes : s.getLast? = some ')'
  endRegion_eq : endRegion .code s = .code
  endsStatement_eq : endsStatement (marks .code s) = false
  placeholderMarks_eq : placeholderMarks (marks .code s) = placeholders

/-! ## Scanned text is inert -/

namespace Sql

/-- The region in which the scanner is. -/
def Mode.region : Mode → Region
  | quoted _ => .quoted '"'
  | _ => .code

/-- Characters of names are not blank. -/
theorem isBlank_of_isNameChar {c : Char} (h : isNameChar c = true) : Text.isBlank c = false := by
  have hranges := isNameChar_iff_toNat.1 h
  simp only [Text.isBlank, Text.blankRanges, List.any_cons, List.any_nil, Bool.or_eq_false_iff,
    Bool.and_eq_false_iff, decide_eq_false_iff_not, and_true]
  omega

/-- Characters of names do not end a run of code. -/
theorem endsCode_of_isNameChar {c : Char} (h : isNameChar c = true) :
    Lexeme.endsCode c = false := by
  have hne : ∀ d, isNameChar d = false → decide (c = d) = false := by
    intro d hd
    refine decide_eq_false fun hcd => ?_
    rw [← hcd, h] at hd
    cases hd
  rw [Lexeme.endsCode, isBlank_of_isNameChar h, hne ';' rfl, hne '\'' rfl, hne '"' rfl,
    hne '\x60' rfl, hne '[' rfl, hne '-' rfl, hne '/' rfl]
  rfl

/-- At a character the scanner and the regions move in step, and both pass as many placeholders. -/
def InStep (r : Region) (bs : List Binding) (c : Char) (next : Option Char) (m : Mode)
    (bs' : List Binding) : Prop :=
  ∃ k, r.step c next = (k, m.region) ∧ k ≠ .semicolon ∧
    bs.length = placeholderMarks [(k, c)] + bs'.length

theorem inStep_of_isNameChar {c : Char} (h : isNameChar c = true) (bs : List Binding)
    (next : Option Char) (w : List Char) : InStep .code bs c next (.word w) bs := by
  have hc : c ≠ '?' := by
    rintro rfl
    cases h
  refine ⟨.code, Lexeme.step_of_not_endsCode (endsCode_of_isNameChar h) next, by decide, ?_⟩
  simp [placeholderMarks, hc]

theorem inStep_of_isSign {c : Char} (h : isSign c = true) (bs : List Binding)
    (next : Option Char) (w : List Char) : InStep .code bs c next (.symbol w) bs := by
  simp only [isSign, Bool.or_eq_true, decide_eq_true_eq] at h
  rcases h with (rfl | rfl) | rfl <;> exact ⟨.code, rfl, by decide, by simp [placeholderMarks]⟩

theorem inStep_start {bs bs' : List Binding} {ts ts' : List Token} {c : Char} {m : Mode}
    (h : start bs ts c = some (m, bs', ts')) (next : Option Char) :
    InStep .code bs c next m bs' := by
  unfold start at h
  split at h
  case isTrue hname =>
    cases h
    exact inStep_of_isNameChar hname bs next [c]
  case isFalse =>
  split at h
  case isTrue hsign =>
    cases h
    exact inStep_of_isSign hsign bs next [c]
  case isFalse =>
  split at h
  case h_7 =>
    cases bs with
    | nil => cases h
    | cons b bs =>
      cases h
      exact ⟨.code, rfl, by decide, by simp [placeholderMarks, Nat.add_comm]⟩
  case h_8 => cases h
  all_goals
    cases h
    exact ⟨_, rfl, by decide, by simp [placeholderMarks]⟩

theorem inStep_step {m m' : Mode} {bs bs' : List Binding} {ts : List Token} {c : Char}
    (h : step m bs c = some (m', bs', ts)) (next : Option Char) :
    InStep m.region bs c next m' bs' := by
  cases m with
  | between => exact inStep_start h next
  | word w =>
    rw [step] at h
    split at h
    case isTrue hname =>
      cases h
      exact inStep_of_isNameChar hname bs next (c :: w)
    case isFalse => exact inStep_start h next
  | symbol w =>
    rw [step] at h
    split at h
    case isTrue hsign =>
      cases h
      exact inStep_of_isSign hsign bs next (c :: w)
    case isFalse => exact inStep_start h next
  | quoted w =>
    rw [step] at h
    split at h
    case isTrue hquote =>
      cases h
      rw [hquote]
      exact ⟨_, rfl, by decide, by simp [placeholderMarks]⟩
    case isFalse hquote =>
      cases h
      refine ⟨_, Lexeme.step_quoted_of_ne hquote next, by decide, ?_⟩
      simp [placeholderMarks, Region.quotedKind]
  | name w =>
    rw [step] at h
    split at h
    case isTrue hquote =>
      cases h
      rw [hquote]
      exact ⟨_, rfl, by decide, by simp [placeholderMarks]⟩
    case isFalse => exact inStep_start h next

/-- Over a text that is scanned, the regions come to where the scanner comes to. -/
theorem region_of_run {m m' : Mode} {bs bs' : List Binding} {s : List Char} {ts : List Token}
    (h : run m bs s = some (m', bs', ts)) :
    endRegion m.region s = m'.region ∧ endsStatement (marks m.region s) = false ∧
      bs.length = placeholderMarks (marks m.region s) + bs'.length := by
  induction s generalizing m bs ts with
  | nil =>
    cases h
    exact ⟨rfl, rfl, (Nat.zero_add _).symm⟩
  | cons c s ih =>
    obtain ⟨⟨m₁, bs₁, ts₁⟩, hstep, h⟩ := Option.bind_eq_some_iff.1 h
    obtain ⟨⟨m₂, bs₂, ts₂⟩, hrun, h⟩ := Option.bind_eq_some_iff.1 h
    cases h
    obtain ⟨k, hregion, hk, hlength⟩ := inStep_step hstep s.head?
    obtain ⟨hend, hends, hplaceholders⟩ := ih hrun
    rw [endRegion, marks, hregion]
    refine ⟨hend, ?_, ?_⟩
    · rw [endsStatement, List.any_cons, decide_eq_false hk]
      exact hends
    · rw [hlength, hplaceholders, ← Nat.add_assoc, ← placeholderMarks_append]
      rfl

end Sql

/-- A text between parentheses that is read as an expression is inert. -/
theorem Fragment.ReadsAs.inert {f : Fragment} {e : Sql.Expr} (h : f.ReadsAs e)
    (opens : f.text.toList.head? = some '(') (closes : f.text.toList.getLast? = some ')') :
    Inert f.text.toList f.bindings.length := by
  have htokens := h.2
  rw [Sql.tokens?] at htokens
  split at htokens
  case h_1 m ts hrun =>
    obtain ⟨hend, hends, hplaceholders⟩ := Sql.region_of_run hrun
    have hclosed : m.region = .code := by
      cases m with
      | quoted w => cases htokens
      | _ => rfl
    exact ⟨opens, closes, hend.trans hclosed, hends, hplaceholders.symm⟩
  case h_2 => cases htokens

/-- The text of a clause between parentheses is inert. -/
theorem BoundClause.inert (b : BoundClause) :
    Inert ("(" ++ b.clause.text ++ ")").toList b.bindings.length := by
  have htext : ("(" ++ b.clause.text ++ ")").toList = '(' :: b.clause.text.toList ++ [')'] := by
    simp
  exact b.readsAs_expr.inert (by rw [htext]; rfl) (by rw [htext, List.getLast?_concat])

/-- The text of a filter is inert. -/
theorem inert_compile {limits : Limits} {v : Value} {f : Fragment} (h : compile limits v = .ok f) :
    Inert f.text.toList f.bindings.length := by
  obtain ⟨b, -, -, -, rfl⟩ := compile_eq_ok_iff.1 h
  exact b.inert

/-! ## Putting texts between others -/

namespace Inert

variable {p t : List Char} {n : Nat}

theorem meets_left (ht : Inert t n) (p : List Char) : Meets p t :=
  .inr fun c hc => by
    rw [ht.opens] at hc
    cases hc
    rfl

theorem meets_right (ht : Inert t n) (p s : List Char) : Meets (p ++ t) s :=
  .inl fun c hc => by
    rw [List.getLast?_append, ht.closes] at hc
    cases hc
    rfl

theorem endRegion_front (ht : Inert t n) (hp : endRegion .code p = .code) :
    endRegion .code (p ++ t) = .code := by
  rw [endRegion_append _ (ht.meets_left p), hp, ht.endRegion_eq]

/-- The region at the end is that of the text behind. -/
theorem endRegion_splice (ht : Inert t n) (hp : endRegion .code p = .code) (s : List Char) :
    endRegion .code (p ++ t ++ s) = endRegion .code s := by
  rw [endRegion_append _ (ht.meets_right p s), ht.endRegion_front hp]

/-- Each of the texts is marked as it is alone. -/
theorem marks_splice (ht : Inert t n) (hp : endRegion .code p = .code) (s : List Char) :
    marks .code (p ++ t ++ s) = marks .code p ++ marks .code t ++ marks .code s := by
  rw [marks_append _ (ht.meets_right p s), ht.endRegion_front hp,
    marks_append _ (ht.meets_left p), hp]

/-- A second statement begins in the text in front, or with the text put in when the text in front
ends a statement, or in the text behind. -/
theorem secondMark?_splice (ht : Inert t n) (l m : List (LexemeKind × Char)) :
    secondMark? false 0 (l ++ marks .code t ++ m) =
      (secondMark? false 0 l).or
        (if endsStatement l then some (markBytes l)
        else (secondMark? false 0 m).map (· + (markBytes l + byteCount t))) := by
  obtain ⟨t, rfl⟩ := List.head?_eq_some_iff.1 ht.opens
  rw [List.append_assoc, secondMark?_append, secondMark?_append _ _ (marks _ _), Nat.zero_add,
    Bool.false_or, markBytes_marks, ht.endsStatement_eq, Bool.or_false]
  cases endsStatement l with
  | true => rfl
  | false =>
    rw [secondMark?_of_not_endsStatement ht.endsStatement_eq, Option.none_or,
      secondMark?_shift false (_ + _)]
    rfl

end Inert

theorem readMarks_map {α β : Type} (f : List (LexemeKind × Char) → α) (g : α → β) (s : String) :
    readMarks (fun m => g (f m)) s = (readMarks f s).map g := by
  rw [readMarks, readMarks]
  cases (endRegion .code s.toList).open? <;> rfl

section Splice

variable {p t : String} {n : Nat} (ht : Inert t.toList n) (hp : endRegion .code p.toList = .code)
include hp

theorem readMarks_front {α : Type} (f : List (LexemeKind × Char) → α) :
    readMarks f p = .ok (f (marks .code p.toList)) := by
  rw [readMarks, hp, Region.open?]

include ht

/-- What is read off marks is read off the marks of the texts that are put together. -/
theorem readMarks_splice {α : Type} (f : List (LexemeKind × Char) → α) (s : String) :
    readMarks f (p ++ t ++ s) =
      readMarks (fun m => f (marks .code p.toList ++ marks .code t.toList ++ m)) s := by
  rw [readMarks, String.toList_append, String.toList_append, ht.endRegion_splice hp,
    ht.marks_splice hp]
  rfl

/-- The texts are cut into lexemes or refused as the last of them is. -/
theorem lexemes_splice (s : String) :
    (lexemes (p ++ t ++ s)).map (fun _ => ()) = (lexemes s).map fun _ => () := by
  have hunit : ∀ sql, (lexemes sql).map (fun _ => ()) = readMarks (fun _ => ()) sql :=
    map_lexemes_eq_readMarks fun _ _ _ => rfl
  rw [hunit, hunit, readMarks_splice ht hp]

theorem countPlaceholders_splice (s : String) :
    countPlaceholders (p ++ t ++ s) =
      (countPlaceholders s).map (placeholderMarks (marks .code p.toList) + n + ·) := by
  rw [countPlaceholders_eq_readMarks, countPlaceholders_eq_readMarks, readMarks_splice ht hp,
    ← readMarks_map]
  congr 1
  funext m
  rw [placeholderMarks_append, placeholderMarks_append, ht.placeholderMarks_eq]

theorem stackedStatement?_splice (s : String) :
    stackedStatement? (p ++ t ++ s) = (stackedStatement? s).map fun b =>
      (secondMark? false 0 (marks .code p.toList)).or
        (if endsStatement (marks .code p.toList) then some p.utf8ByteSize
        else b.map (· + (p.utf8ByteSize + t.utf8ByteSize))) := by
  rw [stackedStatement?_eq_readMarks, stackedStatement?_eq_readMarks, readMarks_splice ht hp,
    ← readMarks_map]
  congr 1
  funext m
  rw [ht.secondMark?_splice, markBytes_marks, utf8ByteSize_eq, utf8ByteSize_eq]

end Splice

theorem isOk_iff_of_map_eq {ε α : Type} {x y : Except ε α}
    (h : x.map (fun _ => ()) = y.map fun _ => ()) :
    ((∃ a, x = .ok a) ↔ ∃ a, y = .ok a) ∧ ∀ e, x = .error e ↔ y = .error e := by
  cases x <;> cases y <;> simp_all [Except.map]

/-- **The text of a filter leaves its surroundings as they are.** Behind a text that can be cut into
lexemes and does not end in a line comment, and in front of any text, a filter opens and closes
nothing: what is behind it is cut up or refused as it is alone, the placeholders are those of the
three texts, and a second statement begins where it does without the filter, unless the filter
itself stands behind a semicolon. -/
theorem screening_splice {limits : Limits} {v : Value} {f : Fragment}
    (h : compile limits v = .ok f) {p : String} {ls : List Lexeme} (hp : lexemes p = .ok ls)
    (hlast : ∀ l, ls.getLast? = some l → ¬Lexeme.IsLineComment l.kind l.chars) (s : String) :
    ((∃ ms, lexemes (p ++ f.text ++ s) = .ok ms) ↔ ∃ ms, lexemes s = .ok ms) ∧
    (∀ e, lexemes (p ++ f.text ++ s) = .error e ↔ lexemes s = .error e) ∧
    (∃ m, countPlaceholders p = .ok m ∧
      countPlaceholders (p ++ f.text ++ s) =
        (countPlaceholders s).map fun n => m + f.bindings.length + n) ∧
    ∃ a, stackedStatement? p = .ok a ∧
      stackedStatement? (p ++ f.text ++ s) = (stackedStatement? s).map fun b =>
        a.or (if ∃ l ∈ ls, l.kind = .semicolon then some p.utf8ByteSize
          else b.map (· + (p.utf8ByteSize + f.text.utf8ByteSize))) := by
  have ht := inert_compile h
  have hagree := agree_lexemes hp
  have hfront := hagree.endRegion_eq hlast
  obtain ⟨hok, herror⟩ := isOk_iff_of_map_eq (lexemes_splice ht hfront s)
  refine ⟨hok, herror, ⟨placeholderMarks (marks .code p.toList), ?_, ?_⟩,
    secondMark? false 0 (marks .code p.toList), ?_, ?_⟩
  · rw [countPlaceholders_eq_readMarks, readMarks_front hfront]
  · exact countPlaceholders_splice ht hfront s
  · rw [stackedStatement?_eq_readMarks, readMarks_front hfront]
  · rw [stackedStatement?_splice ht hfront, hagree.endsStatement_eq]
    simp only [decide_eq_true_eq]

/-- Question marks of comments are no placeholders, and a second statement is found behind a
filter. -/
theorem screening_splice_behind_comment :
    ∃ f, compile {} (.object [("a.b", .int 1)]) = .ok f ∧
      f.text = "((json_extract(\"a\", ?) = ?))" ∧
      (∃ ms, lexemes ("t -- ?\n" ++ f.text ++ "; x?") = .ok ms) ∧
      countPlaceholders ("t -- ?\n" ++ f.text ++ "; x?") = .ok 3 ∧
      stackedStatement? ("t -- ?\n" ++ f.text ++ "; x?") = .ok (some 37) := by
  have h : compile {} (.object [("a.b", .int 1)]) = .ok _ := rfl
  have hp : lexemes "t -- ?\n" = .ok [⟨.code, ['t'], 0⟩, ⟨.trivia, [' '], 1⟩,
      ⟨.trivia, ['-', '-', ' ', '?'], 2⟩, ⟨.trivia, ['\n'], 6⟩] := by
    decide +kernel
  have hlast : ∀ l, some (Lexeme.mk .trivia ['\n'] 6) = some l →
      ¬Lexeme.IsLineComment l.kind l.chars := by
    rintro l hl ⟨-, hdashes⟩
    cases hl
    exact absurd hdashes (by decide)
  obtain ⟨hok, -, ⟨m, hm, hcount⟩, a, ha, hstacked⟩ := screening_splice h hp hlast "; x?"
  have hcounts : countPlaceholders "t -- ?\n" = .ok 0 ∧ countPlaceholders "; x?" = .ok 1 := by
    decide +kernel
  have hseconds : stackedStatement? "t -- ?\n" = .ok none ∧
      stackedStatement? "; x?" = .ok (some 2) := by
    decide +kernel
  have hs : ∃ ms, lexemes "; x?" = .ok ms :=
    ⟨[⟨.semicolon, [';'], 0⟩, ⟨.trivia, [' '], 1⟩, ⟨.code, ['x', '?'], 2⟩], by decide +kernel⟩
  rw [hcounts.1] at hm
  rw [hseconds.1] at ha
  rw [hcounts.2] at hcount
  rw [hseconds.2] at hstacked
  cases hm
  cases ha
  exact ⟨_, h, rfl, hok.2 hs, hcount, hstacked⟩

end BoundSql
