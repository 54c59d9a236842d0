import BoundSql.Proofs.Lexeme.Agree

/-!
# Behind the last semicolon

A statement may end with a semicolon, and more semicolons, blanks and comments may stand behind it.
A `Filler` is such a piece of text. Wherever a filler stands in code, it is a stretch of one kind
and code follows it (`Filler.spans`), so what fillers are screened for is told one at a time, by
induction on the list of them.

`stackedStatement?_terminated` says what a semicolon and some fillers do to a text that is a single
statement: nothing to its placeholders, and nothing to the statement either, with one exception. A
form feed is a blank where a run of code ends, but it is none of the blanks that separate lexemes:
it is code, and a second statement begins with it.
-/

namespace BoundSql

open Lexeme

/-! ## Fillers -/

/-- Whether a character is one of the five blanks of ASCII that are white space: space, tab, line
feed, form feed and carriage return. -/
def isAsciiBlank (c : Char) : Bool :=
  c = ' ' || c = '\t' || c = '\n' || c = '\x0c' || c = '\r'

/-- A piece of the text behind the last statement. -/
inductive Filler
  | blank (c : Char) (h : isAsciiBlank c = true)
  | semicolon
  /-- A comment that is closed by the first star and slash in it. -/
  | blockComment (body : List Char) (h : ¬ ['*', '/'] <:+: body)
  /-- A comment with the end of its line. -/
  | lineComment (body : List Char) (h : '\n' ∉ body)

namespace Filler

/-- The characters of a filler. -/
def chars : Filler → List Char
  | blank c _ => [c]
  | semicolon => [';']
  | blockComment body _ => '/' :: '*' :: (body ++ ['*', '/'])
  | lineComment body _ => '-' :: '-' :: (body ++ ['\n'])

/-- The text of some fillers. -/
def text (fillers : List Filler) : String :=
  String.ofList (fillers.flatMap chars)

/-- Whether a filler is a form feed. -/
def isFormFeed : Filler → Bool
  | blank c _ => c = '\x0c'
  | _ => false

/-- The byte at which the first form feed stands among fillers that begin at a byte. -/
def formFeed? (offset : Nat) : List Filler → Option Nat
  | [] => none
  | p :: fillers =>
    if p.isFormFeed then some offset else formFeed? (offset + byteCount p.chars) fillers

/-- The kind of the characters of a filler. -/
def kind : Filler → LexemeKind
  | blank c _ => if c = '\x0c' then .code else .trivia
  | semicolon => .semicolon
  | _ => .trivia

theorem formFeed?_eq_none_iff {offset : Nat} {fillers : List Filler} :
    formFeed? offset fillers = none ↔ ∀ p ∈ fillers, p.isFormFeed = false := by
  induction fillers generalizing offset with
  | nil => simp [formFeed?]
  | cons p fillers ih =>
    have hrest : formFeed? (offset + byteCount p.chars) fillers = none ↔ _ := ih
    rw [formFeed?, List.forall_mem_cons, ← hrest]
    cases p.isFormFeed <;> simp

/-! ## Fillers as stretches of marks -/

theorem spans_blank {c : Char} (h : isAsciiBlank c = true) (rest : List Char) :
    Spans .code (blank c h).kind [c] rest .code := by
  have hstep : ∀ next, Region.step .code c next = ((blank c h).kind, .code) := by
    simp only [isAsciiBlank, Bool.or_eq_true, decide_eq_true_eq] at h
    rcases h with (((rfl | rfl) | rfl) | rfl) | rfl <;> exact fun _ => rfl
  exact .cons (hstep _) .nil

/-- The body of a block comment, with the delimiter that closes it. The star at its end does not
close it together with what comes before. -/
theorem spans_blockComment {body : List Char} (h : ¬ ['*', '/'] <:+: body) (rest : List Char) :
    Spans .blockComment .trivia (body ++ ['*', '/']) rest .code := by
  induction body with
  | nil => exact .cons rfl (.cons rfl .nil)
  | cons c body ih =>
    have hbody : ¬ ['*', '/'] <:+: body := fun hin =>
      h (hin.trans (List.suffix_cons c body).isInfix)
    refine .cons (step_blockComment_of_not ?_) (ih hbody)
    rintro ⟨rfl, hnext⟩
    cases body with
    | nil => cases hnext
    | cons d body =>
      obtain rfl : d = '/' := Option.some.inj hnext
      exact h (List.prefix_append ['*', '/'] body).isInfix

theorem spans_lineComment {body : List Char} (h : '\n' ∉ body) (rest : List Char) :
    Spans .lineComment .trivia (body ++ ['\n']) rest .code := by
  induction body with
  | nil => exact .cons rfl .nil
  | cons c body ih =>
    rw [List.mem_cons, not_or] at h
    refine .cons ?_ (ih h.2)
    rw [Region.step, if_neg (Ne.symm h.1)]

/-- A filler in code is a stretch of its kind, and code follows it. -/
theorem spans (p : Filler) (rest : List Char) : Spans .code p.kind p.chars rest .code := by
  cases p with
  | blank c h => exact spans_blank h rest
  | semicolon => exact .cons rfl .nil
  | blockComment body h => exact .cons rfl (.cons rfl (spans_blockComment h rest))
  | lineComment body h => exact .cons rfl (.cons rfl (spans_lineComment h rest))

/-- Only form feeds are more than a pause between statements. -/
theorem kind_cases (p : Filler) :
    p.isFormFeed = true ∧ p.kind = .code ∧ p.chars = ['\x0c'] ∨
      p.isFormFeed = false ∧ (p.kind = .trivia ∨ p.kind = .semicolon) := by
  cases p with
  | blank c h =>
    by_cases hc : c = '\x0c'
    · subst hc
      exact .inl ⟨rfl, rfl, rfl⟩
    · exact .inr ⟨decide_eq_false hc, .inl (if_neg hc)⟩
  | semicolon => exact .inr ⟨rfl, .inr rfl⟩
  | blockComment body h => exact .inr ⟨rfl, .inl rfl⟩
  | lineComment body h => exact .inr ⟨rfl, .inl rfl⟩

/-! ## Runs of fillers -/

theorem endRegion_flatMap (fillers : List Filler) :
    endRegion .code (fillers.flatMap chars) = .code := by
  induction fillers with
  | nil => rfl
  | cons p fillers ih => rw [List.flatMap_cons, (p.spans _).endRegion_eq, ih]

/-- No filler has a placeholder. -/
theorem placeholderMarks_flatMap (fillers : List Filler) :
    placeholderMarks (marks .code (fillers.flatMap chars)) = 0 := by
  induction fillers with
  | nil => rfl
  | cons p fillers ih =>
    have hnone : placeholderMarks (marked p.kind p.chars) = 0 := by
      rw [placeholderMarks_marked ⟨p.kind, p.chars, 0⟩, placeholders]
      rcases p.kind_cases with ⟨-, hkind, hchars⟩ | ⟨-, hkind | hkind⟩
      · simp [hkind, hchars]
      · simp [hkind]
      · simp [hkind]
    rw [List.flatMap_cons, (p.spans _).marks_eq, placeholderMarks_append, hnone, ih]

/-- Behind a semicolon, a second statement begins among fillers at the first form feed. -/
theorem secondMark?_flatMap (offset : Nat) (fillers : List Filler) :
    secondMark? true offset (marks .code (fillers.flatMap chars)) = formFeed? offset fillers := by
  induction fillers generalizing offset with
  | nil => rfl
  | cons p fillers ih =>
    rw [List.flatMap_cons, (p.spans _).marks_eq, formFeed?]
    rcases p.kind_cases with ⟨hfeed, hkind, hchars⟩ | ⟨hfeed, hkind⟩
    · rw [hfeed, hkind, hchars]
      rfl
    · rw [hfeed, secondMark?_append, secondMark?_marked_of_blank hkind, markBytes_marked,
        Bool.true_or, Option.none_or, ih]
      rfl

end Filler

/-! ## Terminated statements -/

/-- A text that ends in code is marked as it is alone when a semicolon and some fillers follow. -/
theorem marks_terminated {s : List Char} (hs : endRegion .code s = .code)
    (fillers : List Filler) :
    marks .code (s ++ ';' :: fillers.flatMap Filler.chars) =
        marks .code s ++ (.semicolon, ';') :: marks .code (fillers.flatMap Filler.chars) ∧
      endRegion .code (s ++ ';' :: fillers.flatMap Filler.chars) = .code := by
  have hmeets : Meets s (';' :: fillers.flatMap Filler.chars) := .inr fun c hc => by
    cases hc
    rfl
  have hsemicolon := Filler.semicolon.spans (fillers.flatMap Filler.chars)
  constructor
  · rw [marks_append _ hmeets, hs]
    exact congrArg _ hsemicolon.marks_eq
  · rw [endRegion_append _ hmeets, hs]
    exact hsemicolon.endRegion_eq.trans (Filler.endRegion_flatMap fillers)

/-- **What a terminator does.** A text that is a single statement and does not end in a line comment
may be followed by a semicolon and by any fillers. Its placeholders stay the same. A second
statement begins at the first form feed of the fillers, so the text is still a single statement
exactly when there is none: other blanks, comments and further semicolons are harmless. -/
theorem stackedStatement?_terminated {sql : String} (h : stackedStatement? sql = .ok none)
    (hlast : ∀ ls l, lexemes sql = .ok ls → ls.getLast? = some l →
      ¬IsLineComment l.kind l.chars) (fillers : List Filler) :
    stackedStatement? (sql ++ ";" ++ Filler.text fillers) =
        .ok (Filler.formFeed? (sql.utf8ByteSize + 1) fillers) ∧
      countPlaceholders (sql ++ ";" ++ Filler.text fillers) = countPlaceholders sql ∧
      (stackedStatement? (sql ++ ";" ++ Filler.text fillers) = .ok none ↔
        ∀ p ∈ fillers, p.isFormFeed = false) := by
  have htext : (sql ++ ";" ++ Filler.text fillers).toList =
      sql.toList ++ ';' :: fillers.flatMap Filler.chars := by simp [Filler.text]
  have hend : endRegion .code sql.toList = .code := by
    cases hls : lexemes sql with
    | error e =>
      rw [stackedStatement?, hls] at h
      cases h
    | ok ls => exact (agree_lexemes hls).endRegion_eq fun l => hlast ls l hls
  obtain ⟨hmarks, hclosed⟩ := marks_terminated hend fillers
  have hsingle : secondMark? false 0 (marks .code sql.toList) = none := by
    rw [stackedStatement?_eq_readMarks, readMarks, hend] at h
    exact Except.ok.inj h
  have hstacked : stackedStatement? (sql ++ ";" ++ Filler.text fillers) =
      .ok (Filler.formFeed? (sql.utf8ByteSize + 1) fillers) := by
    rw [stackedStatement?_eq_readMarks, readMarks, htext, hclosed, hmarks, secondMark?_append,
      hsingle, Option.none_or, markBytes_marks, Nat.zero_add, ← utf8ByteSize_eq,
      ← Filler.secondMark?_flatMap]
    rfl
  refine ⟨hstacked, ?_, ?_⟩
  · rw [countPlaceholders_eq_readMarks, countPlaceholders_eq_readMarks, readMarks, readMarks, htext,
      hclosed, hend, hmarks, placeholderMarks_append]
    exact congrArg (fun n => Except.ok (placeholderMarks (marks .code sql.toList) + n))
      (Filler.placeholderMarks_flatMap fillers)
  · rw [hstacked, Except.ok.injEq, Filler.formFeed?_eq_none_iff]

/-- Semicolons and question marks of comments, and a comment that is nearly closed twice. -/
theorem stackedStatement?_terminated_by_comments :
    stackedStatement? "SELECT ?" = .ok none ∧
      stackedStatement? "SELECT ?; --;?\n/*/;**/\t;" = .ok none ∧
      countPlaceholders "SELECT ?; --;?\n/*/;**/\t;" = .ok 1 := by
  have h : stackedStatement? "SELECT ?" = .ok none := by decide +kernel
  have hls : lexemes "SELECT ?" = .ok [⟨.code, "SELECT".toList, 0⟩, ⟨.trivia, [' '], 6⟩,
      ⟨.code, ['?'], 7⟩] := by
    decide +kernel
  have hlast : ∀ ls l, lexemes "SELECT ?" = .ok ls → ls.getLast? = some l →
      ¬IsLineComment l.kind l.chars := by
    rintro ls l hls' hl ⟨htrivia, -⟩
    rw [hls] at hls'
    cases hls'
    cases hl
    cases htrivia
  obtain ⟨-, hcount, hiff⟩ := stackedStatement?_terminated h hlast
    [.blank ' ' rfl, .lineComment ";?".toList (by decide), .blockComment "/;*".toList (by decide),
      .blank '\t' rfl, .semicolon]
  refine ⟨h, hiff.2 (by decide), hcount.trans ?_⟩
  rw [countPlaceholders, hls]
  rfl

/-- A form feed behind the semicolon begins a second statement, though it is white space. -/
theorem form_feed_begins_statement :
    stackedStatement? "SELECT 1" = .ok none ∧
      (∀ ls l, lexemes "SELECT 1" = .ok ls → ls.getLast? = some l →
        ¬IsLineComment l.kind l.chars) ∧
      isAsciiBlank '\x0c' = true ∧ Text.isBlank '\x0c' = true ∧
      stackedStatement? ("SELECT 1" ++ ";" ++ Filler.text [.blank '\x0c' rfl]) = .ok (some 9) := by
  have hls : lexemes "SELECT 1" = .ok [⟨.code, "SELECT".toList, 0⟩, ⟨.trivia, [' '], 6⟩,
      ⟨.code, ['1'], 7⟩] := by
    decide +kernel
  refine ⟨by decide +kernel, ?_, rfl, by decide, by decide +kernel⟩
  rintro ls l hls' hl ⟨htrivia, -⟩
  rw [hls] at hls'
  cases hls'
  cases hl
  cases htrivia

end BoundSql
