import BoundSql.Proofs.Lexeme.Region

/-!
# Lexemes as stretches of marks

`Lexeme.Spans` says that over a stretch of characters of one kind, one region leads to another. The
lexeme at the head of a text is such a stretch, and if it is refused, an enclosure is open at the
end of the text (`reads_first`).
-/

namespace BoundSql

namespace Lexeme

/-- The characters of a lexeme, marked with its kind. -/
def marked (kind : LexemeKind) (chars : List Char) : List (LexemeKind × Char) :=
  chars.map fun c => (kind, c)

/-- Over some characters, all of one kind, a region leads to another one in front of the rest. -/
structure Spans (r : Region) (k : LexemeKind) (chars rest : List Char) (r' : Region) : Prop where
  marks_eq : marks r (chars ++ rest) = marked k chars ++ marks r' rest
  endRegion_eq : endRegion r (chars ++ rest) = endRegion r' rest

namespace Spans

variable {r r₁ r' : Region} {k : LexemeKind} {c : Char} {chars rest : List Char}

theorem nil : Spans r k [] rest r :=
  ⟨rfl, rfl⟩

theorem cons (hstep : r.step c (chars ++ rest).head? = (k, r₁)) (h : Spans r₁ k chars rest r') :
    Spans r k (c :: chars) rest r' := by
  constructor
  · rw [List.cons_append, marks, hstep, h.marks_eq]
    rfl
  · rw [List.cons_append, endRegion, hstep, h.endRegion_eq]

theorem append {chars' : List Char} (h : Spans r k chars (chars' ++ rest) r₁)
    (h' : Spans r₁ k chars' rest r') : Spans r k (chars ++ chars') rest r' := by
  constructor
  · rw [List.append_assoc, h.marks_eq, h'.marks_eq, ← List.append_assoc, marked, marked, marked,
      List.map_append]
  · rw [List.append_assoc, h.endRegion_eq, h'.endRegion_eq]

/-- Where a stretch begins matters for its first character only. -/
theorem of_step_eq (h : Spans r k (c :: chars) rest r')
    (hstep : r₁.step c (chars ++ rest).head? = r.step c (chars ++ rest).head?) :
    Spans r₁ k (c :: chars) rest r' := by
  obtain ⟨hmarks, hend⟩ := h
  rw [List.cons_append] at hmarks hend
  constructor
  · rw [List.cons_append, marks, hstep]
    exact hmarks
  · rw [List.cons_append, endRegion, hstep]
    exact hend

/-- A region goes on over characters that do not lead out of it. -/
theorem takeWhile {p : Char → Bool} (h : ∀ c next, p c = true → r.step c next = (k, r))
    (s : List Char) : Spans r k (s.takeWhile p) (s.dropWhile p) r := by
  induction s with
  | nil => exact nil
  | cons c s ih =>
    cases hc : p c with
    | true =>
      rw [List.takeWhile_cons_of_pos hc, List.dropWhile_cons_of_pos hc]
      exact cons (h c _ hc) ih
    | false =>
      rw [List.takeWhile_cons_of_neg (by simp [hc])]
      exact nil

end Spans

/-! ## Enclosures -/

/-- The delimiters between which a doubled one does not close. -/
def IsQuote (d : Char) : Prop :=
  d = '\'' ∨ d = '"' ∨ d = '\x60'

/-- A quotation begins at a quote. -/
theorem stepCode_of_isQuote {d : Char} (hd : IsQuote d) (next : Option Char) :
    Region.step .code d next = (Region.quotedKind d, .quoted d) := by
  rcases hd with rfl | rfl | rfl <;> rfl

theorem step_quoted_self (d : Char) (next : Option Char) :
    Region.step (.quoted d) d next = (Region.quotedKind d, .code) := by
  rw [Region.step, if_pos rfl]

theorem step_quoted_of_ne {c d : Char} (h : c ≠ d) (next : Option Char) :
    Region.step (.quoted d) c next = (Region.quotedKind d, .quoted d) := by
  rw [Region.step, if_neg h]

/-- What is closed by a quote is a quotation, and code follows. A doubled quote is for regions the
end of a quotation and the beginning of another one. -/
theorem spans_closeQuoted {d : Char} (hd : IsQuote d) {taken s chars rest : List Char}
    (h : closeQuoted d taken s = some (chars, rest)) :
    ∃ body, chars = taken.reverse ++ body ∧ s = body ++ rest ∧
      Spans (.quoted d) (Region.quotedKind d) body rest .code := by
  fun_induction closeQuoted d taken s with
  | case1 => cases h
  | case2 taken =>
    cases h
    refine ⟨[d], by simp, by simp, ?_⟩
    exact .cons (step_quoted_self d _) .nil
  | case3 => cases h
  | case4 taken s ih =>
    obtain ⟨body, hchars, hs, hspans⟩ := ih h
    refine ⟨d :: d :: body, by simp [hchars], by simp [hs], ?_⟩
    exact .cons (step_quoted_self d _) (.cons (stepCode_of_isQuote hd _) hspans)
  | case5 taken e s he =>
    cases h
    refine ⟨[d], by simp, by simp, ?_⟩
    exact .cons (step_quoted_self d _) .nil
  | case6 taken c e s hc ih =>
    obtain ⟨body, hchars, hs, hspans⟩ := ih h
    refine ⟨c :: body, by simp [hchars], by simp [hs], ?_⟩
    exact .cons (step_quoted_of_ne hc _) hspans

/-- A quotation that is not closed goes on to the end. -/
theorem endRegion_of_closeQuoted {d : Char} (hd : IsQuote d) {taken s : List Char}
    (h : closeQuoted d taken s = none) : endRegion (.quoted d) s = .quoted d := by
  fun_induction closeQuoted d taken s with
  | case1 => rfl
  | case2 => cases h
  | case3 taken c hc => rw [endRegion, step_quoted_of_ne hc, endRegion]
  | case4 taken s ih =>
    rw [endRegion, step_quoted_self, endRegion, stepCode_of_isQuote hd]
    exact ih h
  | case5 => cases h
  | case6 taken c e s hc ih =>
    rw [endRegion, step_quoted_of_ne hc]
    exact ih h

theorem step_blockComment_of_not {c : Char} {next : Option Char}
    (h : ¬(c = '*' ∧ next = some '/')) :
    Region.step .blockComment c next = (.trivia, .blockComment) := by
  rw [Region.step, if_neg h]

/-- What is closed by a star and a slash is a comment, and code follows. -/
theorem spans_closeComment {taken s chars rest : List Char}
    (h : closeComment taken s = some (chars, rest)) :
    ∃ body, chars = taken.reverse ++ body ∧ s = body ++ rest ∧
      Spans .blockComment .trivia body rest .code := by
  fun_induction closeComment taken s with
  | case1 => cases h
  | case2 => cases h
  | case3 taken c d s hcd =>
    obtain ⟨rfl, rfl⟩ := hcd
    cases h
    refine ⟨['*', '/'], by simp, rfl, ?_⟩
    exact .cons rfl (.cons rfl .nil)
  | case4 taken c d s hcd ih =>
    obtain ⟨body, hchars, hs, hspans⟩ := ih h
    refine ⟨c :: body, by simp [hchars], by simp [hs], .cons ?_ hspans⟩
    rw [← hs]
    refine step_blockComment_of_not fun hclose => hcd ⟨hclose.1, ?_⟩
    exact Option.some.inj hclose.2

/-- A comment that is not closed goes on to the end. -/
theorem endRegion_of_closeComment {taken s : List Char} (h : closeComment taken s = none) :
    endRegion .blockComment s = .blockComment := by
  fun_induction closeComment taken s with
  | case1 => rfl
  | case2 taken c => rw [endRegion, step_blockComment_of_not (by simp), endRegion]
  | case3 => cases h
  | case4 taken c d s hcd ih =>
    rw [endRegion, step_blockComment_of_not]
    · exact ih h
    · exact fun hclose => hcd ⟨hclose.1, Option.some.inj hclose.2⟩

/-! ## The first lexeme -/

/-- A text may be in code, or at the end of the line of a comment. -/
def Resumes (r : Region) (s : List Char) : Prop :=
  r = .code ∨ r = .lineComment ∧ ∀ c, s.head? = some c → c = '\n'

/-- A line feed ends a line comment, and is a blank in code. -/
theorem Resumes.step_eq {r : Region} {c : Char} {s : List Char} (h : Resumes r (c :: s))
    (next : Option Char) : r.step c next = Region.step .code c next := by
  rcases h with rfl | ⟨rfl, hc⟩
  · rfl
  · rw [hc c rfl]
    rfl

/-- Whether a piece of text is a comment that ends with its line. -/
def IsLineComment (kind : LexemeKind) (chars : List Char) : Prop :=
  kind = .trivia ∧ ['-', '-'] <+: chars

/-- The text behind a lexeme is in code, unless the lexeme is a line comment, which goes on until
the end of its line. -/
def Cut.Leaves (cut : Cut) (r : Region) : Prop :=
  r = .code ∨ r = .lineComment ∧ IsLineComment cut.kind cut.chars ∧
    ∀ c, cut.rest.head? = some c → c = '\n'

theorem Cut.Leaves.resumes {cut : Cut} {r : Region} (h : cut.Leaves r) : Resumes r cut.rest :=
  h.imp_right fun hline => ⟨hline.1, hline.2.2⟩

theorem step_of_isPlainBlank {c : Char} (h : Text.isPlainBlank c = true) (next : Option Char) :
    Region.step .code c next = (.trivia, .code) := by
  rw [Region.step, Region.stepCode, if_pos h]

/-- A character that does not end a run of code is no blank and opens nothing. -/
theorem of_not_endsCode {c : Char} (h : endsCode c = false) :
    Text.isPlainBlank c = false ∧ c ≠ ';' ∧ c ≠ '\'' ∧ c ≠ '"' ∧ c ≠ '\x60' ∧ c ≠ '[' ∧ c ≠ '-' ∧
      c ≠ '/' := by
  simp only [endsCode, Bool.or_eq_false_iff, decide_eq_false_iff_not] at h
  obtain ⟨⟨⟨⟨⟨⟨⟨hblank, hsemi⟩, hsingle⟩, hdouble⟩, hback⟩, hbracket⟩, hdash⟩, hslash⟩ := h
  refine ⟨?_, hsemi, hsingle, hdouble, hback, hbracket, hdash, hslash⟩
  rw [← Bool.not_eq_true] at hblank ⊢
  exact mt Text.isBlank_of_isPlainBlank hblank

theorem step_of_not_endsCode {c : Char} (h : endsCode c = false) (next : Option Char) :
    Region.step .code c next = (.code, .code) := by
  obtain ⟨hplain, hsemi, hsingle, hdouble, hback, hbracket, hdash, hslash⟩ := of_not_endsCode h
  simp [Region.step, Region.stepCode, hplain, hsemi, hsingle, hdouble, hback, hbracket, hdash,
    hslash]

theorem first_of_not_endsCode {c : Char} (h : endsCode c = false) (s : List Char) :
    first c s = .ok (run .code (fun d => !endsCode d) [c] s) := by
  obtain ⟨hplain, hsemi, hsingle, hdouble, hback, hbracket, hdash, hslash⟩ := of_not_endsCode h
  simp [first, h, hplain, hsemi, hsingle, hdouble, hback, hbracket, hdash, hslash]

theorem head?_dropWhile {α : Type} {p : α → Bool} {l : List α} {a : α}
    (h : (l.dropWhile p).head? = some a) : p a = false := by
  have hnot := List.head?_dropWhile_not p l
  rw [h] at hnot
  exact hnot

/-- A lexeme stands at the head of the text `c :: s`, as a stretch of its kind. -/
def Cut.IsHead (cut : Cut) (c : Char) (s : List Char) : Prop :=
  ∃ more r, cut.chars = c :: more ∧ s = more ++ cut.rest ∧
    Spans .code cut.kind (c :: more) cut.rest r ∧ cut.Leaves r

/-- The head of the text `c :: s` is read as a lexeme that stands there, or refused because of an
enclosure that is open at the end of the text. -/
def Reads (c : Char) (s : List Char) : Except Enclosure Cut → Prop
  | .ok cut => cut.IsHead c s
  | .error e => (endRegion .code (c :: s)).open? = some e

/-- A run of characters that do not lead out of the region that the first of them leads to. -/
theorem isHead_run {k : LexemeKind} {p : Char → Bool} {r : Region} {c : Char} {s : List Char}
    (hfirst : Region.step .code c s.head? = (k, r))
    (hrun : ∀ d next, p d = true → r.step d next = (k, r))
    (hleaves : (run k p [c] s).Leaves r) : (run k p [c] s).IsHead c s := by
  have hspans := Spans.takeWhile hrun s
  have hstep : Region.step .code c (s.takeWhile p ++ s.dropWhile p).head? = (k, r) := by
    rw [List.takeWhile_append_dropWhile, hfirst]
  exact ⟨s.takeWhile p, r, rfl, List.takeWhile_append_dropWhile.symm, .cons hstep hspans, hleaves⟩

theorem isHead_lineComment (s : List Char) :
    (run .trivia (· ≠ '\n') ['-'] ('-' :: s)).IsHead '-' ('-' :: s) := by
  refine isHead_run rfl (fun d next hd => ?_) (.inr ⟨rfl, ⟨rfl, ?_⟩, fun d hd => ?_⟩)
  · rw [Region.step, if_neg (by simpa using hd)]
  · exact ⟨s.takeWhile (· ≠ '\n'), rfl⟩
  · simpa using head?_dropWhile hd

theorem isHead_single {k : LexemeKind} {c : Char} {s : List Char}
    (hfirst : Region.step .code c s.head? = (k, .code)) :
    Cut.IsHead { kind := k, chars := [c], rest := s } c s :=
  ⟨[], .code, rfl, rfl, .cons hfirst .nil, .inl rfl⟩

theorem reads_blockComment (s : List Char) :
    Reads '/' ('*' :: s) (enclosed .trivia .blockComment (closeComment ['*', '/'] s)) := by
  cases hclose : closeComment ['*', '/'] s with
  | none =>
    have hend : endRegion .code ('/' :: '*' :: s) = endRegion .blockComment s := rfl
    rw [enclosed, Reads, hend, endRegion_of_closeComment hclose, Region.open?]
  | some p =>
    obtain ⟨chars, rest⟩ := p
    obtain ⟨body, hchars, hs, hspans⟩ := spans_closeComment hclose
    have htext : '*' :: s = '*' :: body ++ rest := by rw [hs, List.cons_append]
    exact ⟨'*' :: body, .code, hchars, htext, .cons rfl (.cons rfl hspans), .inl rfl⟩

theorem reads_quotation {c : Char} (hc : IsQuote c) (s : List Char) {k : LexemeKind}
    {e : Enclosure} (hk : Region.quotedKind c = k) (he : (Region.quoted c).open? = some e) :
    Reads c s (enclosed k e (closeQuoted c [c] s)) := by
  cases hclose : closeQuoted c [c] s with
  | none =>
    rw [enclosed, Reads, endRegion, stepCode_of_isQuote hc, endRegion_of_closeQuoted hc hclose, he]
  | some p =>
    obtain ⟨chars, rest⟩ := p
    obtain ⟨body, hchars, hs, hspans⟩ := spans_closeQuoted hc hclose
    have hstep : Region.step .code c (body ++ rest).head? = (k, .quoted c) := by
      rw [stepCode_of_isQuote hc, hk]
    rw [hk] at hspans
    exact ⟨body, .code, hchars, hs, .cons hstep hspans, .inl rfl⟩

/-- Brackets go on as long as they are not closed. -/
theorem spans_bracketed {s rest : List Char} (hrest : s.dropWhile (· ≠ ']') = rest) :
    Spans .bracketed .quotedIdentifier (s.takeWhile (· ≠ ']')) rest .bracketed := by
  rw [← hrest]
  refine .takeWhile (fun c next hc => ?_) s
  rw [Region.step, if_neg (by simpa using hc)]

/-- Brackets are closed by the first one that closes. -/
theorem eq_of_brackets {d : Char} {s rest : List Char}
    (hrest : s.dropWhile (· ≠ ']') = d :: rest) :
    d = ']' ∧ s = s.takeWhile (· ≠ ']') ++ [d] ++ rest := by
  constructor
  · have hnot := head?_dropWhile (by rw [hrest, List.head?_cons] : _ = some d)
    simpa using hnot
  · rw [List.append_assoc, List.singleton_append, ← hrest, List.takeWhile_append_dropWhile]

theorem isHead_brackets {d : Char} {s rest : List Char}
    (hrest : s.dropWhile (· ≠ ']') = d :: rest) :
    Cut.IsHead { kind := .quotedIdentifier, chars := '[' :: s.takeWhile (· ≠ ']') ++ [d], rest }
      '[' s := by
  obtain ⟨hd, htext⟩ := eq_of_brackets hrest
  have hclose : Spans .bracketed .quotedIdentifier [d] rest .code := by
    rw [hd]
    exact .cons rfl .nil
  have hspans := (spans_bracketed hrest).append hclose
  exact ⟨s.takeWhile (· ≠ ']') ++ [d], .code, rfl, htext, .cons rfl hspans, .inl rfl⟩

theorem open?_of_brackets {s : List Char} (hrest : s.dropWhile (· ≠ ']') = []) :
    (endRegion .code ('[' :: s)).open? = some .quotedIdentifier := by
  have htake : s.takeWhile (· ≠ ']') ++ [] = s := by
    rw [← hrest, List.takeWhile_append_dropWhile]
  have hend := (spans_bracketed hrest).endRegion_eq
  rw [htake] at hend
  exact congrArg Region.open? hend

/-- The first lexeme is read off the head of the text. -/
theorem reads_first (c : Char) (s : List Char) : Reads c s (first c s) := by
  unfold first
  split
  case isTrue hblank =>
    exact isHead_run (step_of_isPlainBlank hblank _) (fun d next hd => step_of_isPlainBlank hd next)
      (.inl rfl)
  case isFalse hblank =>
  split
  case isTrue hdash =>
    obtain ⟨rfl, hnext⟩ := hdash
    obtain ⟨s, rfl⟩ := List.head?_eq_some_iff.1 hnext
    exact isHead_lineComment s
  case isFalse hdash =>
  split
  case isTrue hslash =>
    obtain ⟨rfl, hnext⟩ := hslash
    obtain ⟨s, rfl⟩ := List.head?_eq_some_iff.1 hnext
    exact reads_blockComment s
  case isFalse hslash =>
  split
  case isTrue hquote =>
    exact reads_quotation (.inl hquote) s (if_pos hquote) (congrArg some (if_pos hquote))
  case isFalse hsingle =>
  split
  case isTrue hquote =>
    exact reads_quotation (.inr hquote) s (if_neg hsingle) (congrArg some (if_neg hsingle))
  case isFalse hdouble =>
  split
  case isTrue hbracket =>
    rw [hbracket]
    split
    case h_1 hrest => exact open?_of_brackets hrest
    case h_2 d rest hrest => exact isHead_brackets hrest
  case isFalse hbracket =>
  split
  case isTrue hsemi =>
    rw [hsemi]
    exact isHead_single rfl
  case isFalse hsemi =>
  have hcode : Region.step .code c s.head? = (.code, .code) := by
    rw [not_or] at hdouble
    simp [Region.step, Region.stepCode, hblank, hdash, hslash, hsingle, hdouble, hbracket, hsemi]
  split
  case isTrue => exact isHead_single hcode
  case isFalse =>
    exact isHead_run hcode (fun d next hd => step_of_not_endsCode (by simpa using hd) next)
      (.inl rfl)

end Lexeme

end BoundSql
