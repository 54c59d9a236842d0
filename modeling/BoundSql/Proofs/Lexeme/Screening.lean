import BoundSql.Proofs.Lexeme.Agree
import Mathlib.Data.List.TakeWhile

/-!
# Screening by regions

All that SQL text is screened for can be told from its regions, character by character: whether an
enclosure is left open, where the placeholders are, and where a second statement begins
(`screening_by_regions`).

`SecondBegins` says where a second statement begins without going over the text: behind a first
statement and the semicolon that ends it there is nothing but a pause, and then something else.
-/

namespace BoundSql

open Lexeme

/-! ## Where a second statement begins -/

/-- What may stand between two statements: blanks, comments and semicolons. -/
def isPause (m : LexemeKind × Char) : Bool :=
  m.1 = .trivia || m.1 = .semicolon

/-- A second statement begins at a byte: in front of it are a statement without a semicolon of its
own, and a pause that begins with one. -/
def SecondBegins (l : List (LexemeKind × Char)) (offset : Nat) : Prop :=
  ∃ statement pause m rest, l = statement ++ (pause ++ m :: rest) ∧
    (∀ x ∈ statement, x.1 ≠ .semicolon) ∧ pause.head?.map Prod.fst = some .semicolon ∧
    (∀ x ∈ pause, isPause x = true) ∧ isPause m = false ∧
    offset = markBytes (statement ++ pause)

theorem endsStatement_eq_false_iff {l : List (LexemeKind × Char)} :
    endsStatement l = false ↔ ∀ x ∈ l, x.1 ≠ .semicolon := by
  simp [endsStatement]

theorem secondMark?_of_isPause {l : List (LexemeKind × Char)} (h : ∀ x ∈ l, isPause x = true)
    (ended : Bool) (offset : Nat) : secondMark? ended offset l = none := by
  induction l generalizing ended offset with
  | nil => rfl
  | cons x l ih =>
    obtain ⟨k, c⟩ := x
    rw [List.forall_mem_cons] at h
    cases k with
    | trivia => exact ih h.2 ended _
    | semicolon => exact ih h.2 true _
    | _ => cases h.1

theorem secondMark?_of_not_isPause {m : LexemeKind × Char} (h : isPause m = false) (offset : Nat)
    (l : List (LexemeKind × Char)) : secondMark? true offset (m :: l) = some offset := by
  obtain ⟨k, c⟩ := m
  cases k with
  | trivia => cases h
  | semicolon => cases h
  | _ => rfl

@[simp] theorem markBytes_append (l m : List (LexemeKind × Char)) :
    markBytes (l ++ m) = markBytes l + markBytes m := by
  induction l with
  | nil => exact (Nat.zero_add _).symm
  | cons x l ih => rw [List.cons_append, markBytes, ih, markBytes, Nat.add_assoc]

/-- A second statement is found where it begins. -/
theorem SecondBegins.secondMark?_eq {l : List (LexemeKind × Char)} {offset : Nat}
    (h : SecondBegins l offset) : secondMark? false 0 l = some offset := by
  obtain ⟨statement, pause, m, rest, rfl, hstatement, hhead, hpause, hm, rfl⟩ := h
  have hends : endsStatement pause = true := by
    obtain ⟨x, hx, hkind⟩ := Option.map_eq_some_iff.1 hhead
    refine List.any_eq_true.2 ⟨x, List.mem_of_head? hx, ?_⟩
    rw [hkind]
    rfl
  have hfirst := endsStatement_eq_false_iff.2 hstatement
  rw [secondMark?_append, secondMark?_of_not_endsStatement hfirst, Option.none_or,
    secondMark?_append, secondMark?_of_isPause hpause, Option.none_or, hends, Bool.or_true,
    secondMark?_of_not_isPause hm, Nat.zero_add, markBytes_append]

/-- What is found begins a second statement. -/
theorem secondBegins_of_secondMark? {l : List (LexemeKind × Char)} {offset : Nat}
    (h : secondMark? false 0 l = some offset) : SecondBegins l offset := by
  have hsplit := List.takeWhile_append_dropWhile (p := fun x => decide (x.1 ≠ .semicolon)) (l := l)
  have hstatement : ∀ x ∈ l.takeWhile (fun x => decide (x.1 ≠ .semicolon)), x.1 ≠ .semicolon :=
    fun x hx => by simpa using List.mem_takeWhile_imp hx
  have hhead : ∀ x, (l.dropWhile fun x => decide (x.1 ≠ .semicolon)).head? = some x →
      x.1 = .semicolon := fun x hx => by simpa using head?_dropWhile hx
  revert hsplit hstatement hhead
  generalize l.takeWhile (fun x => decide (x.1 ≠ .semicolon)) = statement
  generalize l.dropWhile (fun x => decide (x.1 ≠ .semicolon)) = behind
  intro hsplit hstatement hhead
  have hpauses : ∀ x ∈ behind.takeWhile isPause, isPause x = true := fun x hx =>
    List.mem_takeWhile_imp hx
  have hbehind := List.takeWhile_append_dropWhile (p := isPause) (l := behind)
  cases hrest : behind.dropWhile isPause with
  | nil =>
    -- Nothing but a pause is behind the first statement, so nothing would have been found.
    rw [hrest, List.append_nil] at hbehind
    rw [hbehind] at hpauses
    rw [← hsplit, secondMark?_append, secondMark?_of_isPause hpauses,
      secondMark?_of_not_endsStatement (endsStatement_eq_false_iff.2 hstatement)] at h
    cases h
  | cons m rest =>
    have hm : isPause m = false := head?_dropWhile (congrArg List.head? hrest)
    have hends : (behind.takeWhile isPause).head?.map Prod.fst = some .semicolon := by
      cases behind with
      | nil => cases hrest
      | cons x behind =>
        have hx : x.1 = .semicolon := hhead x rfl
        have hpause : isPause x = true := by simp [isPause, hx]
        rw [List.takeWhile_cons_of_pos hpause, List.head?_cons, Option.map_some, hx]
    rw [hrest] at hbehind
    have hbegins : SecondBegins l (markBytes (statement ++ behind.takeWhile isPause)) :=
      ⟨statement, behind.takeWhile isPause, m, rest, by rw [hbehind, hsplit], hstatement, hends,
        hpauses, hm, rfl⟩
    rw [hbegins.secondMark?_eq] at h
    rwa [← Option.some.inj h]

theorem secondMark?_eq_some_iff {l : List (LexemeKind × Char)} {offset : Nat} :
    secondMark? false 0 l = some offset ↔ SecondBegins l offset :=
  ⟨secondBegins_of_secondMark?, SecondBegins.secondMark?_eq⟩

/-! ## The screen -/

/-- A text is cut into lexemes unless an enclosure is open at its end. -/
theorem lexemes_of_open? {sql : String} {construct : Enclosure}
    (h : (endRegion .code sql.toList).open? = some construct) :
    lexemes sql = .error (.unterminated construct) := by
  cases hls : lexemes sql with
  | ok ls =>
    rw [(agree_lexemes hls).closed] at h
    cases h
  | error e =>
    obtain ⟨construct', rfl, hopen⟩ := open?_of_lexemes hls
    rw [h] at hopen
    rw [Option.some.inj hopen]

theorem screen_eq_ok_iff {sql : String} {max : Nat} :
    screen sql max = .ok () ↔ sql.utf8ByteSize ≤ max ∧ stackedStatement? sql = .ok none := by
  rw [screen]
  by_cases hlength : max < sql.utf8ByteSize
  · simp [hlength, Nat.not_le.2 hlength]
  · have hle : sql.utf8ByteSize ≤ max := Nat.le_of_not_lt hlength
    rw [if_neg hlength]
    cases stackedStatement? sql with
    | error e => simp
    | ok offset => cases offset <;> simp [hle]

/-- **Regions tell what text is screened for.** A text is refused exactly when an enclosure is open
at its end, and that is the enclosure that is named. Any other text is cut into lexemes whose kinds
are those of their characters; its placeholders are the question marks of code, and a second
statement is found where it begins. The screen lets a text pass that is short enough, leaves nothing
open and has no second statement. -/
theorem screening_by_regions (sql : String) :
    (∀ e, lexemes sql = .error e ↔ ∃ construct, e = .unterminated construct ∧
      (endRegion .code sql.toList).open? = some construct) ∧
    (∀ ls, lexemes sql = .ok ls →
      (marks .code sql.toList = ls.flatMap fun l => l.chars.map fun c => (l.kind, c)) ∧
      countPlaceholders sql = .ok ((marks .code sql.toList).count (.code, '?')) ∧
      ∃ second, stackedStatement? sql = .ok second ∧
        ∀ offset, second = some offset ↔ SecondBegins (marks .code sql.toList) offset) ∧
    ∀ max, screen sql max = .ok () ↔ sql.utf8ByteSize ≤ max ∧
      (endRegion .code sql.toList).open? = none ∧
      ∀ offset, ¬SecondBegins (marks .code sql.toList) offset := by
  refine ⟨fun e => ⟨open?_of_lexemes, ?_⟩, fun ls hls => ?_, fun max => ?_⟩
  · rintro ⟨construct, rfl, hopen⟩
    exact lexemes_of_open? hopen
  · have hagree := agree_lexemes hls
    refine ⟨hagree.marks_eq, ?_, secondMark? false 0 (marks .code sql.toList), ?_, ?_⟩
    · rw [countPlaceholders_eq_readMarks, readMarks, hagree.closed]
      rfl
    · rw [stackedStatement?_eq_readMarks, readMarks, hagree.closed]
    · exact fun offset => secondMark?_eq_some_iff
  · rw [screen_eq_ok_iff, stackedStatement?_eq_readMarks, readMarks]
    cases (endRegion .code sql.toList).open? with
    | some construct => simp
    | none =>
      simp only [Except.ok.injEq, true_and, ← secondMark?_eq_some_iff,
        Option.eq_none_iff_forall_ne_some, ne_eq]

-- The star behind the slash that opens the comment does not close it.
example : stackedStatement? "/*/;?*/ [;] ;--;\n; x" = .ok (some 19) := by decide +kernel

end BoundSql
