import BoundSql.Proofs.Lexeme.Spans
import Mathlib.Data.List.Count
import Mathlib.Data.Prod.Basic

/-!
# Lexemes and regions agree

The lexemes of a text and its marks are two views of it: the kinds of the lexemes are the marks of
their characters, and a text has no lexemes exactly when an enclosure is open at its end. So what a
text is screened for can be read off its marks (`readMarks`).
-/

namespace BoundSql

/-! ## Marks of one kind -/

open Lexeme

theorem utf8ByteSize_eq (s : String) : s.utf8ByteSize = byteCount s.toList := by
  have hlist : ∀ l : List Char, (String.ofList l).utf8ByteSize = byteCount l := by
    intro l
    induction l with
    | nil => rfl
    | cons c l ih =>
      rw [String.ofList_cons, String.utf8ByteSize_append, String.utf8ByteSize_singleton, ih]
      rfl
  rw [← hlist, String.ofList_toList]

@[simp] theorem markBytes_marked (k : LexemeKind) (chars : List Char) :
    markBytes (marked k chars) = byteCount chars := by
  induction chars with
  | nil => rfl
  | cons c chars ih => exact congrArg (c.utf8Size + ·) ih

theorem endsStatement_marked {k : LexemeKind} {chars : List Char} (h : chars ≠ []) :
    endsStatement (marked k chars) = decide (k = .semicolon) := by
  obtain ⟨c, chars, rfl⟩ := List.exists_cons_of_ne_nil h
  cases k <;> simp [endsStatement, marked]

/-- The placeholders of a lexeme are its question marks, if it is code. -/
@[simp] theorem placeholderMarks_marked (l : Lexeme) :
    placeholderMarks (marked l.kind l.chars) = l.placeholders := by
  obtain ⟨k, chars, offset⟩ := l
  have hnone : k ≠ .code → placeholderMarks (marked k chars) = 0 := by
    intro hk
    refine List.count_eq_zero.2 fun hmem => ?_
    obtain ⟨c, -, hc⟩ := List.mem_map.1 hmem
    exact hk (congrArg Prod.fst hc)
  cases k with
  | code => exact List.count_map_of_injective chars _ (Prod.mk_right_injective _) '?'
  | _ => exact hnone nofun

theorem placeholderMarks_flatMap (ls : List Lexeme) :
    placeholderMarks (ls.flatMap fun l => marked l.kind l.chars) = placeholderCount ls := by
  induction ls with
  | nil => rfl
  | cons l ls ih =>
    rw [List.flatMap_cons, placeholderMarks_append, placeholderMarks_marked, ih]
    rfl

/-- No second statement begins before a first one has ended. -/
theorem secondMark?_of_not_endsStatement {l : List (LexemeKind × Char)}
    (h : endsStatement l = false) (offset : Nat) : secondMark? false offset l = none := by
  induction l generalizing offset with
  | nil => rfl
  | cons x l ih =>
    obtain ⟨k, c⟩ := x
    rw [endsStatement, List.any_cons, Bool.or_eq_false_iff] at h
    cases k <;> simp_all [secondMark?, endsStatement]

/-- No statement begins in blanks and comments, and none with a semicolon. -/
theorem secondMark?_marked_of_blank {k : LexemeKind} (hk : k = .trivia ∨ k = .semicolon)
    (ended : Bool) (offset : Nat) (chars : List Char) :
    secondMark? ended offset (marked k chars) = none := by
  induction chars generalizing ended offset with
  | nil => rfl
  | cons c chars ih => rcases hk with rfl | rfl <;> exact ih ..

/-! ## Whole texts -/

/-- The lexemes of a text say the same as its marks, when the text begins in a region and at a
byte. -/
structure Agree (r : Region) (offset : Nat) (s : List Char) (ls : List Lexeme) : Prop where
  marks_eq : marks r s = ls.flatMap fun l => marked l.kind l.chars
  not_empty : ∀ l ∈ ls, l.chars ≠ []
  closed : (endRegion r s).open? = none
  second_eq : ∀ ended, secondStatement? ended ls = secondMark? ended offset (marks r s)
  /-- A text that ends in a line comment has one as its last lexeme. -/
  last : endRegion r s = .lineComment →
    ls = [] ∧ r = .lineComment ∨ ∃ l, ls.getLast? = some l ∧ IsLineComment l.kind l.chars

namespace Agree

theorem nil {r : Region} (hr : r.open? = none) (offset : Nat) : Agree r offset [] [] where
  marks_eq := rfl
  not_empty := nofun
  closed := hr
  second_eq _ := rfl
  last h := .inl ⟨rfl, h⟩

/-- The second statement begins at the first lexeme, or further on. -/
theorem second_cons {k : LexemeKind} {chars : List Char} (hne : chars ≠ []) (offset : Nat)
    {l : List (LexemeKind × Char)} {ls : List Lexeme}
    (h : ∀ ended, secondStatement? ended ls = secondMark? ended (offset + byteCount chars) l)
    (ended : Bool) :
    secondStatement? ended ({ kind := k, chars, offset } :: ls) =
      secondMark? ended offset (marked k chars ++ l) := by
  rw [secondMark?_append, markBytes_marked, endsStatement_marked hne, ← h]
  cases k with
  | trivia => simp [secondStatement?, secondMark?_marked_of_blank]
  | semicolon => simp [secondStatement?, secondMark?_marked_of_blank]
  | _ =>
    obtain ⟨c, chars, rfl⟩ := List.exists_cons_of_ne_nil hne
    cases ended with
    | true => rfl
    | false =>
      rw [secondMark?_of_not_endsStatement (endsStatement_marked hne)]
      rfl

/-- One more lexeme at the head of a text. -/
theorem cons {cut : Cut} {r r' : Region} {ls : List Lexeme}
    {offset : Nat} (hspans : Spans r cut.kind cut.chars cut.rest r') (hne : cut.chars ≠ [])
    (hleaves : cut.Leaves r')
    (h : Agree r' (offset + byteCount cut.chars) cut.rest ls) :
    Agree r offset (cut.chars ++ cut.rest)
      ({ kind := cut.kind, chars := cut.chars, offset } :: ls) where
  marks_eq := by rw [hspans.marks_eq, h.marks_eq, List.flatMap_cons]
  not_empty := List.forall_mem_cons.2 ⟨hne, h.not_empty⟩
  closed := by rw [hspans.endRegion_eq, h.closed]
  second_eq ended := by rw [hspans.marks_eq, second_cons hne offset h.second_eq]
  last hend := by
    rw [hspans.endRegion_eq] at hend
    rcases h.last hend with ⟨rfl, rfl⟩ | ⟨l, hlast, hline⟩
    · rcases hleaves with hr | ⟨-, hline, -⟩
      · cases hr
      · exact .inr ⟨_, rfl, hline⟩
    · refine .inr ⟨l, ?_, hline⟩
      rw [List.getLast?_cons, hlast, Option.getD_some]

end Agree

/-- A lexeme at the head of a text stands there wherever the text may be. -/
theorem Lexeme.Cut.IsHead.exists_spans {cut : Cut} {c : Char} {s : List Char} {r : Region}
    (h : cut.IsHead c s) (hr : Resumes r (c :: s)) :
    ∃ r', c :: s = cut.chars ++ cut.rest ∧ cut.chars ≠ [] ∧
      Spans r cut.kind cut.chars cut.rest r' ∧ cut.Leaves r' := by
  obtain ⟨more, r', hchars, hs, hspans, hleaves⟩ := h
  rw [hs] at hr
  have htext : c :: s = cut.chars ++ cut.rest := by rw [hchars, hs, List.cons_append]
  refine ⟨r', htext, ?_, ?_, hleaves⟩
  · rw [hchars]
    nofun
  · rw [hchars]
    exact hspans.of_step_eq (hr.step_eq _)

/-- The lexemes that are found in a text agree with its marks, and if there are none, an enclosure
is open at its end. -/
theorem agree_lexemesFrom (found : List Lexeme) (offset : Nat) (s : List Char) {r : Region}
    (hr : Resumes r s) :
    (∀ ls, lexemesFrom found offset s = .ok ls →
      ∃ new, ls = found.reverse ++ new ∧ Agree r offset s new) ∧
    ∀ e, lexemesFrom found offset s = .error e → (endRegion r s).open? = some e := by
  fun_induction lexemesFrom found offset s generalizing r with
  | case1 found offset =>
    refine ⟨fun ls h => ?_, nofun⟩
    cases h
    have hopen : r.open? = none := by
      rcases hr with rfl | ⟨rfl, -⟩ <;> rfl
    exact ⟨[], (List.append_nil _).symm, .nil hopen offset⟩
  | case2 found offset c s e hfirst =>
    refine ⟨nofun, fun e' h => ?_⟩
    cases h
    have hread := reads_first c s
    rw [hfirst] at hread
    rw [endRegion, hr.step_eq]
    exact hread
  | case3 found offset c s cut hfirst _ ih =>
    have hread := reads_first c s
    rw [hfirst] at hread
    obtain ⟨r', htext, hne, hspans, hleaves⟩ := hread.exists_spans hr
    obtain ⟨hok, herror⟩ := ih hleaves.resumes
    constructor
    · intro ls h
      obtain ⟨new, rfl, hagree⟩ := hok ls h
      refine ⟨{ kind := cut.kind, chars := cut.chars, offset } :: new, by simp, ?_⟩
      rw [htext]
      exact .cons hspans hne hleaves hagree
    · intro e h
      rw [htext, hspans.endRegion_eq]
      exact herror e h

/-- What is read off the marks of a text, which is refused when an enclosure is open at its end. -/
def readMarks {α : Type} (f : List (LexemeKind × Char) → α) (sql : String) : Except Error α :=
  match (endRegion .code sql.toList).open? with
  | none => .ok (f (marks .code sql.toList))
  | some construct => .error (.unterminated construct)

/-- The lexemes of a text agree with its marks. -/
theorem agree_lexemes {sql : String} {ls : List Lexeme} (h : lexemes sql = .ok ls) :
    Agree .code 0 sql.toList ls := by
  rw [lexemes] at h
  split at h
  case h_1 ls' hls =>
    cases h
    obtain ⟨new, rfl, hagree⟩ := (agree_lexemesFrom [] 0 sql.toList (.inl rfl)).1 _ hls
    exact hagree
  case h_2 => cases h

/-- A text is refused for the enclosure that is open at its end. -/
theorem open?_of_lexemes {sql : String} {e : Error} (h : lexemes sql = .error e) :
    ∃ construct, e = .unterminated construct ∧
      (endRegion .code sql.toList).open? = some construct := by
  rw [lexemes] at h
  split at h
  case h_1 => cases h
  case h_2 construct hls =>
    cases h
    exact ⟨construct, rfl, (agree_lexemesFrom [] 0 sql.toList (.inl rfl)).2 _ hls⟩

/-- What can be told of lexemes by their marks can be read off the marks of the text. -/
theorem map_lexemes_eq_readMarks {α : Type} {g : List Lexeme → α}
    {f : List (LexemeKind × Char) → α}
    (h : ∀ s ls, Agree .code 0 s ls → g ls = f (marks .code s)) (sql : String) :
    (lexemes sql).map g = readMarks f sql := by
  cases hls : lexemes sql with
  | ok ls =>
    have hagree := agree_lexemes hls
    rw [readMarks, hagree.closed, Except.map, h _ _ hagree]
  | error e =>
    obtain ⟨construct, rfl, hopen⟩ := open?_of_lexemes hls
    rw [readMarks, hopen, Except.map]

theorem countPlaceholders_eq_readMarks (sql : String) :
    countPlaceholders sql = readMarks placeholderMarks sql := by
  refine map_lexemes_eq_readMarks (fun s ls h => ?_) sql
  rw [h.marks_eq, placeholderMarks_flatMap]

theorem stackedStatement?_eq_readMarks (sql : String) :
    stackedStatement? sql = readMarks (secondMark? false 0) sql :=
  map_lexemes_eq_readMarks (fun _ _ h => h.second_eq false) sql

/-- A text ends in code, unless its last lexeme is a line comment. -/
theorem Agree.endRegion_eq {offset : Nat} {s : List Char} {ls : List Lexeme}
    (h : Agree .code offset s ls)
    (hlast : ∀ l, ls.getLast? = some l → ¬IsLineComment l.kind l.chars) :
    endRegion .code s = .code := by
  have hclosed := h.closed
  cases hend : endRegion .code s with
  | code => rfl
  | lineComment =>
    rcases h.last hend with ⟨-, hr⟩ | ⟨l, hl, hline⟩
    · cases hr
    · exact absurd hline (hlast l hl)
  | _ =>
    rw [hend] at hclosed
    cases hclosed

/-- A semicolon among the marks is one among the lexemes. -/
theorem Agree.endsStatement_eq {r : Region} {offset : Nat} {s : List Char} {ls : List Lexeme}
    (h : Agree r offset s ls) :
    endsStatement (marks r s) = decide (∃ l ∈ ls, l.kind = .semicolon) := by
  rw [h.marks_eq, endsStatement, List.any_flatMap, Bool.eq_iff_iff, List.any_eq_true,
    decide_eq_true_iff]
  refine exists_congr fun l => and_congr_right fun hl => ?_
  exact Bool.eq_iff_iff.1 (endsStatement_marked (h.not_empty l hl)) |>.trans decide_eq_true_iff

@[simp] theorem map_snd_marks (r : Region) (s : List Char) : (marks r s).map Prod.snd = s := by
  induction s generalizing r with
  | nil => rfl
  | cons c s ih => rw [marks, List.map_cons, ih]

/-- Lexemes that agree with a text make it up. -/
theorem Agree.flatMap_chars {r : Region} {offset : Nat} {ls : List Lexeme}
    (h : Agree r offset s ls) : ls.flatMap Lexeme.chars = s := by
  have hmarks := congrArg (List.map Prod.snd) h.marks_eq
  rw [map_snd_marks, List.map_flatMap] at hmarks
  simpa [marked, Function.comp_def] using hmarks.symm

end BoundSql
