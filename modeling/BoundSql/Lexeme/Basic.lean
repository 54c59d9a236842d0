import BoundSql.Error
import BoundSql.Text.Blank

/-!
# Lexemes of SQL text

SQL text is cut into lexemes, just finely enough to tell code from string literals, quoted
identifiers and comments. `Lexeme.first` takes the lexeme at the head of a text and `lexemes`
repeats it. Each step takes at least one character (`length_rest_first`), so it comes to an end.

A text cannot be cut up when a literal, a quoted identifier or a block comment is left open.
-/

namespace BoundSql

/-- A class of lexemes. -/
inductive LexemeKind
  /-- Blanks, or a comment. -/
  | trivia
  | semicolon
  /-- A text between single quotes; a doubled quote stands for one. -/
  | stringLiteral
  /-- A name between double quotes, back quotes or brackets. -/
  | quotedIdentifier
  /-- Anything else. -/
  | code
  deriving DecidableEq, Repr

/-- A piece of SQL text and the byte at which it begins. -/
structure Lexeme where
  kind : LexemeKind
  chars : List Char
  offset : Nat
  deriving DecidableEq, Repr

/-- The number of bytes of a text in UTF-8. -/
def byteCount (s : List Char) : Nat :=
  s.foldr (fun c n => c.utf8Size + n) 0

namespace Lexeme

/-- A lexeme at the head of a text, and the text after it. -/
structure Cut where
  kind : LexemeKind
  chars : List Char
  rest : List Char
  deriving DecidableEq, Repr

/-- The text through the delimiter that closes it, and the rest; a doubled delimiter does not
close. `taken` is what came before, in reverse. -/
def closeQuoted (delimiter : Char) (taken : List Char) :
    List Char → Option (List Char × List Char)
  | [] => none
  | [c] => if c = delimiter then some ((c :: taken).reverse, []) else none
  | c :: d :: s =>
    if c = delimiter then
      if d = delimiter then closeQuoted delimiter (d :: c :: taken) s
      else some ((c :: taken).reverse, d :: s)
    else closeQuoted delimiter (c :: taken) (d :: s)

/-- The text through the first `*/`, and the rest. `taken` is what came before, in reverse. -/
def closeComment (taken : List Char) : List Char → Option (List Char × List Char)
  | [] => none
  | [_] => none
  | c :: d :: s =>
    if c = '*' ∧ d = '/' then some (('/' :: '*' :: taken).reverse, s)
    else closeComment (c :: taken) (d :: s)

/-- Whether a run of code ends before the character. -/
def endsCode (c : Char) : Bool :=
  Text.isBlank c || c = ';' || c = '\'' || c = '"' || c = '\x60' || c = '[' || c = '-' || c = '/'

/-- The lexeme of an enclosure that was closed, or the fault of one that was not. -/
def enclosed (kind : LexemeKind) (construct : Enclosure) :
    Option (List Char × List Char) → Except Enclosure Cut
  | none => .error construct
  | some (chars, rest) => .ok { kind, chars, rest }

/-- The longest run of characters of a class behind a first part, as a lexeme. -/
def run (kind : LexemeKind) (p : Char → Bool) (first s : List Char) : Cut where
  kind := kind
  chars := first ++ s.takeWhile p
  rest := s.dropWhile p

/-- The lexeme at the head of the text `c :: s`. -/
def first (c : Char) (s : List Char) : Except Enclosure Cut :=
  if Text.isPlainBlank c then .ok (run .trivia Text.isPlainBlank [c] s)
  else if c = '-' ∧ s.head? = some '-' then .ok (run .trivia (· ≠ '\n') [c] s)
  else if c = '/' ∧ s.head? = some '*' then
    enclosed .trivia .blockComment (closeComment ['*', '/'] s.tail)
  else if c = '\'' then enclosed .stringLiteral .stringLiteral (closeQuoted c [c] s)
  else if c = '"' ∨ c = '\x60' then
    enclosed .quotedIdentifier .quotedIdentifier (closeQuoted c [c] s)
  else if c = '[' then
    match s.dropWhile (· ≠ ']') with
    | [] => .error .quotedIdentifier
    | d :: rest =>
      .ok { kind := .quotedIdentifier, chars := c :: s.takeWhile (· ≠ ']') ++ [d], rest }
  else if c = ';' then .ok { kind := .semicolon, chars := [c], rest := s }
  else if endsCode c then .ok { kind := .code, chars := [c], rest := s }
  else .ok (run .code (fun d => !endsCode d) [c] s)

theorem length_closeQuoted {d : Char} {taken s chars rest : List Char}
    (h : closeQuoted d taken s = some (chars, rest)) : rest.length ≤ s.length := by
  fun_induction closeQuoted d taken s with
  | case1 => cases h
  | case2 taken =>
    cases h
    simp
  | case3 => cases h
  | case4 taken s ih =>
    have := ih h
    simp only [List.length_cons]
    omega
  | case5 taken e s he =>
    cases h
    simp
  | case6 taken c e s hc ih =>
    have := ih h
    simp only [List.length_cons] at this ⊢
    omega

theorem length_closeComment {taken s chars rest : List Char}
    (h : closeComment taken s = some (chars, rest)) : rest.length ≤ s.length := by
  fun_induction closeComment taken s with
  | case1 => cases h
  | case2 => cases h
  | case3 taken c d s hcd =>
    cases h
    simp only [List.length_cons]
    omega
  | case4 taken c d s hcd ih =>
    have := ih h
    simp only [List.length_cons] at this ⊢
    omega

theorem enclosed_eq_ok_iff {kind : LexemeKind} {construct : Enclosure}
    {closed : Option (List Char × List Char)} {cut : Cut} :
    enclosed kind construct closed = .ok cut ↔
      cut.kind = kind ∧ closed = some (cut.chars, cut.rest) := by
  cases closed with
  | none => simp [enclosed]
  | some p =>
    obtain ⟨chars, rest⟩ := p
    obtain ⟨k, chars', rest'⟩ := cut
    simp only [enclosed, Except.ok.injEq, Cut.mk.injEq, Option.some.injEq, Prod.mk.injEq]
    exact ⟨fun ⟨h₁, h₂, h₃⟩ => ⟨h₁.symm, h₂, h₃⟩, fun ⟨h₁, h₂, h₃⟩ => ⟨h₁.symm, h₂, h₃⟩⟩

theorem length_dropWhile_le (p : Char → Bool) (s : List Char) :
    (s.dropWhile p).length ≤ s.length :=
  (s.dropWhile_sublist p).length_le

/-- What follows the first lexeme is shorter than the text. -/
theorem length_rest_first {c : Char} {s : List Char} {cut : Cut} (h : first c s = .ok cut) :
    cut.rest.length ≤ s.length := by
  unfold first at h
  split at h
  · cases h
    exact length_dropWhile_le _ _
  split at h
  · cases h
    exact length_dropWhile_le _ _
  split at h
  · have := length_closeComment (enclosed_eq_ok_iff.1 h).2
    simp only [List.length_tail] at this
    omega
  split at h
  · exact length_closeQuoted (enclosed_eq_ok_iff.1 h).2
  split at h
  · exact length_closeQuoted (enclosed_eq_ok_iff.1 h).2
  split at h
  · have drop := length_dropWhile_le (· ≠ ']') s
    split at h
    · cases h
    · next d rest hd =>
      cases h
      rw [hd] at drop
      exact Nat.le_of_succ_le drop
  split at h
  · cases h
    exact Nat.le_refl _
  split at h
  · cases h
    exact Nat.le_refl _
  · cases h
    exact length_dropWhile_le _ _

end Lexeme

/-- The lexemes of a text that begins at a byte, behind those already found, which are given in
reverse. -/
def lexemesFrom (found : List Lexeme) (offset : Nat) :
    List Char → Except Enclosure (List Lexeme)
  | [] => .ok found.reverse
  | c :: s =>
    match h : Lexeme.first c s with
    | .error construct => .error construct
    | .ok cut =>
      have := Lexeme.length_rest_first h
      lexemesFrom ({ kind := cut.kind, chars := cut.chars, offset } :: found)
        (offset + byteCount cut.chars) cut.rest
termination_by s => s.length
decreasing_by exact Nat.lt_succ_of_le this

/-- The lexemes of SQL text, in order. -/
def lexemes (sql : String) : Except Error (List Lexeme) :=
  match lexemesFrom [] 0 sql.toList with
  | .ok ls => .ok ls
  | .error construct => .error (.unterminated construct)

end BoundSql
