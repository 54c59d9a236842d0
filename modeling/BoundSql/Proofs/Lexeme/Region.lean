import BoundSql.Lexeme.Screen

/-!
# The regions of SQL text

SQL text can also be gone over character by character. At each place the text is in a `Region`:
in code, in a comment, or between delimiters. `Region.step` is what a character does; it looks ahead
at the next character only to find the two-character delimiters of comments.

* `marks` says of each character what kind of lexeme it belongs to, and `endRegion` where a text
  ends.
* `marks_append` and `endRegion_append` take texts apart where no delimiter is cut in two.
-/

namespace BoundSql

/-- Where in a text a character stands. -/
inductive Region
  | code
  | lineComment
  /-- Behind the slash that opens a block comment. -/
  | blockOpening
  | blockComment
  /-- Behind the star that closes a block comment. -/
  | blockClosing
  | quoted (delimiter : Char)
  | bracketed
  deriving DecidableEq, Repr

namespace Region

/-- The kind of the lexemes between two of a delimiter. -/
def quotedKind (delimiter : Char) : LexemeKind :=
  if delimiter = '\'' then .stringLiteral else .quotedIdentifier

/-- What a character of code is, and the region behind it. -/
def stepCode (c : Char) (next : Option Char) : LexemeKind × Region :=
  if Text.isPlainBlank c then (.trivia, code)
  else if c = '-' ∧ next = some '-' then (.trivia, lineComment)
  else if c = '/' ∧ next = some '*' then (.trivia, blockOpening)
  else if c = '\'' ∨ c = '"' ∨ c = '\x60' then (quotedKind c, quoted c)
  else if c = '[' then (.quotedIdentifier, bracketed)
  else if c = ';' then (.semicolon, code)
  else (.code, code)

/-- What a character is in a region, in front of the next one, and the region behind it. A line
comment ends before the end of its line. -/
def step (r : Region) (c : Char) (next : Option Char) : LexemeKind × Region :=
  match r with
  | code => stepCode c next
  | lineComment => if c = '\n' then (.trivia, code) else (.trivia, lineComment)
  | blockOpening => (.trivia, blockComment)
  | blockComment =>
    if c = '*' ∧ next = some '/' then (.trivia, blockClosing) else (.trivia, blockComment)
  | blockClosing => (.trivia, code)
  | quoted d => (quotedKind d, if c = d then code else quoted d)
  | bracketed => (.quotedIdentifier, if c = ']' then code else bracketed)

/-- The enclosure that is open in a region. -/
def open? : Region → Option Enclosure
  | code | lineComment => none
  | blockOpening | blockComment | blockClosing => some .blockComment
  | quoted d => some (if d = '\'' then .stringLiteral else .quotedIdentifier)
  | bracketed => some .quotedIdentifier

end Region

/-- The characters of a text, each with the kind of what it belongs to. -/
def marks (r : Region) : List Char → List (LexemeKind × Char)
  | [] => []
  | c :: s => ((r.step c s.head?).1, c) :: marks (r.step c s.head?).2 s

/-- The region at the end of a text. -/
def endRegion (r : Region) : List Char → Region
  | [] => r
  | c :: s => endRegion (r.step c s.head?).2 s

/-! ## Taking texts apart -/

/-- The characters that may be the first half of a delimiter of two characters. -/
def isHalf (c : Char) : Bool :=
  c = '-' || c = '/' || c = '*'

namespace Region

/-- What a character is does not depend on the next one, unless the two may be a delimiter. -/
theorem step_eq_of_not_isHalf {r : Region} {c : Char} {next next' : Option Char}
    (h : isHalf c = false ∨
      (∀ d, next = some d → isHalf d = false) ∧ ∀ d, next' = some d → isHalf d = false) :
    r.step c next = r.step c next' := by
  have hpair : ∀ a b : Char, isHalf a = true → isHalf b = true →
      ((c = a ∧ next = some b) ↔ (c = a ∧ next' = some b)) := by
    intro a b ha hb
    rcases h with h | ⟨h, h'⟩
    · constructor
      · rintro ⟨rfl, -⟩
        rw [ha] at h
        cases h
      · rintro ⟨rfl, -⟩
        rw [ha] at h
        cases h
    · constructor
      · rintro ⟨-, hb'⟩
        rw [h b hb'] at hb
        cases hb
      · rintro ⟨-, hb'⟩
        rw [h' b hb'] at hb
        cases hb
  cases r with
  | code =>
    simp only [step, stepCode, hpair '-' '-' rfl rfl, hpair '/' '*' rfl rfl]
  | blockComment => simp only [step, hpair '*' '/' rfl rfl]
  | _ => rfl

end Region

/-- Texts that can be put together without a delimiter of a comment where they meet. -/
def Meets (s s' : List Char) : Prop :=
  (∀ c, s.getLast? = some c → isHalf c = false) ∨ ∀ c, s'.head? = some c → isHalf c = false

theorem Meets.tail {c d : Char} {s s' : List Char} (h : Meets (c :: d :: s) s') :
    Meets (d :: s) s' := by
  simpa [Meets, List.getLast?_cons_cons] using h

theorem step_append {r : Region} {c : Char} {s s' : List Char} (h : Meets (c :: s) s') :
    r.step c (s ++ s').head? = r.step c s.head? := by
  cases s with
  | nil =>
    refine Region.step_eq_of_not_isHalf ?_
    rcases h with h | h
    · exact .inl (h c rfl)
    · exact .inr ⟨h, nofun⟩
  | cons d s => rfl

theorem marks_append (r : Region) {s s' : List Char} (h : Meets s s') :
    marks r (s ++ s') = marks r s ++ marks (endRegion r s) s' := by
  induction s generalizing r with
  | nil => rfl
  | cons c s ih =>
    rw [List.cons_append, marks, marks, endRegion, step_append h, List.cons_append]
    cases s with
    | nil => rfl
    | cons d s => rw [ih _ h.tail]

theorem endRegion_append (r : Region) {s s' : List Char} (h : Meets s s') :
    endRegion r (s ++ s') = endRegion (endRegion r s) s' := by
  induction s generalizing r with
  | nil => rfl
  | cons c s ih =>
    rw [List.cons_append, endRegion, endRegion, step_append h]
    cases s with
    | nil => rfl
    | cons d s => rw [ih _ h.tail]

/-! ## Screening by marks -/

/-- The number of placeholders among some marked characters. -/
def placeholderMarks (l : List (LexemeKind × Char)) : Nat :=
  l.count (.code, '?')

/-- The number of bytes of some marked characters. -/
def markBytes : List (LexemeKind × Char) → Nat
  | [] => 0
  | m :: l => m.2.utf8Size + markBytes l

/-- The byte at which a second statement begins among marked characters that begin at a byte. -/
def secondMark? (ended : Bool) (offset : Nat) : List (LexemeKind × Char) → Option Nat
  | [] => none
  | (k, c) :: l =>
    match k with
    | .trivia => secondMark? ended (offset + c.utf8Size) l
    | .semicolon => secondMark? true (offset + c.utf8Size) l
    | _ => if ended then some offset else secondMark? ended (offset + c.utf8Size) l

/-- Whether a semicolon is among some marked characters. -/
def endsStatement (l : List (LexemeKind × Char)) : Bool :=
  l.any fun m => m.1 = .semicolon

@[simp] theorem placeholderMarks_append (l m : List (LexemeKind × Char)) :
    placeholderMarks (l ++ m) = placeholderMarks l + placeholderMarks m :=
  List.count_append

theorem secondMark?_append (ended : Bool) (offset : Nat) (l m : List (LexemeKind × Char)) :
    secondMark? ended offset (l ++ m) =
      (secondMark? ended offset l).or
        (secondMark? (ended || endsStatement l) (offset + markBytes l) m) := by
  induction l generalizing ended offset with
  | nil => simp [secondMark?, endsStatement, markBytes]
  | cons x l ih =>
    obtain ⟨k, c⟩ := x
    rw [List.cons_append]
    cases k <;> cases ended <;> simp [secondMark?, ih, endsStatement, markBytes, Nat.add_assoc]

@[simp] theorem markBytes_marks (r : Region) (s : List Char) :
    markBytes (marks r s) = byteCount s := by
  induction s generalizing r with
  | nil => rfl
  | cons c s ih => exact congrArg (c.utf8Size + ·) (ih _)

/-- Marked characters can be moved. -/
theorem secondMark?_shift (ended : Bool) (offset : Nat) (l : List (LexemeKind × Char)) :
    secondMark? ended offset l = (secondMark? ended 0 l).map (· + offset) := by
  induction l generalizing ended offset with
  | nil => rfl
  | cons x l ih =>
    obtain ⟨k, c⟩ := x
    have hmove : ∀ ended, secondMark? ended (offset + c.utf8Size) l =
        (secondMark? ended (0 + c.utf8Size) l).map (· + offset) := by
      intro ended
      rw [ih ended (offset + c.utf8Size), ih ended (0 + c.utf8Size), Option.map_map]
      congr 1
      funext n
      simp only [Function.comp_apply]
      omega
    cases k <;> cases ended <;> simp [secondMark?, hmove]

end BoundSql
