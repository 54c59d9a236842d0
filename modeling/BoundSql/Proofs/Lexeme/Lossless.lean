import BoundSql.Proofs.Lexeme.Agree
import Mathlib.Algebra.Ring.Nat
import Mathlib.Data.List.TakeWhile

/-!
# Lexemes lose nothing

The lexemes of a text are the text itself, cut into pieces that are not empty, and each piece knows
at which byte it stands. A piece depends on what follows it only in where it ends: on its own it is
one lexeme again, of the same kind (`Lexeme.takenFrom_first`).

`CutInto` is the run of the lexer as a judgment, one lexeme after the other. What holds of all
lexemes of a text is shown by induction on it, and `lexemes_lossless` puts this together.
-/

namespace BoundSql

namespace Lexeme

/-! ## Enclosures on their own -/

/-- What is closed by a quote is closed by it too when nothing follows. -/
theorem closeQuoted_alone {d : Char} {taken s chars rest : List Char}
    (h : closeQuoted d taken s = some (chars, rest)) :
    ∃ body, chars = taken.reverse ++ body ∧ s = body ++ rest ∧
      closeQuoted d taken body = some (chars, []) := by
  fun_induction closeQuoted d taken s with
  | case1 => cases h
  | case2 taken =>
    cases h
    exact ⟨[d], by simp, by simp, by simp [closeQuoted]⟩
  | case3 => cases h
  | case4 taken s ih =>
    obtain ⟨body, hchars, hs, hbody⟩ := ih h
    exact ⟨d :: d :: body, by simp [hchars], by simp [hs], by simp [closeQuoted, hbody]⟩
  | case5 taken e s he =>
    cases h
    exact ⟨[d], by simp, by simp, by simp [closeQuoted]⟩
  | case6 taken c e s hc ih =>
    obtain ⟨body, hchars, hs, hbody⟩ := ih h
    refine ⟨c :: body, by simp [hchars], by simp [hs], ?_⟩
    cases body with
    | nil => cases hbody
    | cons e' body => rw [closeQuoted, if_neg hc, hbody]

/-- What is closed by a star and a slash is closed by them too when nothing follows. -/
theorem closeComment_alone {taken s chars rest : List Char}
    (h : closeComment taken s = some (chars, rest)) :
    ∃ body, chars = taken.reverse ++ body ∧ s = body ++ rest ∧
      closeComment taken body = some (chars, []) := by
  fun_induction closeComment taken s with
  | case1 => cases h
  | case2 => cases h
  | case3 taken c d s hcd =>
    obtain ⟨rfl, rfl⟩ := hcd
    cases h
    exact ⟨['*', '/'], by simp, rfl, rfl⟩
  | case4 taken c d s hcd ih =>
    obtain ⟨body, hchars, hs, hbody⟩ := ih h
    refine ⟨c :: body, by simp [hchars], by simp [hs], ?_⟩
    cases body with
    | nil => cases hbody
    | cons d' body =>
      obtain rfl : d = d' := (List.cons.inj hs).1
      rw [closeComment, if_neg hcd, hbody]

/-! ## The first lexeme on its own -/

/-- A lexeme is taken from the head of the text `c :: s`, and would be taken if nothing followed. -/
def Cut.TakenFrom (cut : Cut) (c : Char) (s : List Char) : Prop :=
  ∃ more, cut.chars = c :: more ∧ s = more ++ cut.rest ∧
    first c more = .ok { cut with rest := [] }

/-- A run of characters of a class is a run of them on its own. -/
theorem run_takeWhile (k : LexemeKind) (p : Char → Bool) (c : Char) (s : List Char) :
    run k p [c] (s.takeWhile p) = { run k p [c] s with rest := [] } := by
  have hdrop : (s.takeWhile p).dropWhile p = [] :=
    List.dropWhile_eq_nil_iff.2 fun d hd => List.mem_takeWhile_imp hd
  rw [run, run, List.takeWhile_idem, hdrop]

/-- A run is taken from a text when it is taken from every text with such a head. -/
theorem takenFrom_run {k : LexemeKind} {p : Char → Bool} {c : Char} {s : List Char}
    (h : first c (s.takeWhile p) = .ok (run k p [c] (s.takeWhile p))) :
    (run k p [c] s).TakenFrom c s :=
  ⟨s.takeWhile p, rfl, List.takeWhile_append_dropWhile.symm, by rw [h, run_takeWhile]⟩

theorem takenFrom_single {k : LexemeKind} {c : Char} {s : List Char}
    (h : first c [] = .ok { kind := k, chars := [c], rest := [] }) :
    Cut.TakenFrom { kind := k, chars := [c], rest := s } c s :=
  ⟨[], rfl, rfl, h⟩

/-- A quotation is taken from a text when it is closed. -/
theorem takenFrom_quotation {cut : Cut} {k : LexemeKind} {construct : Enclosure} {c : Char}
    {s : List Char} (hfirst : ∀ s, first c s = enclosed k construct (closeQuoted c [c] s))
    (h : first c s = .ok cut) : cut.TakenFrom c s := by
  rw [hfirst, enclosed_eq_ok_iff] at h
  obtain ⟨hkind, hclosed⟩ := h
  obtain ⟨body, hchars, hs, hbody⟩ := closeQuoted_alone hclosed
  refine ⟨body, hchars, hs, ?_⟩
  rw [hfirst, enclosed_eq_ok_iff]
  exact ⟨hkind, hbody⟩

theorem takenFrom_blockComment {cut : Cut} {s : List Char}
    (h : enclosed .trivia .blockComment (closeComment ['*', '/'] s) = .ok cut) :
    cut.TakenFrom '/' ('*' :: s) := by
  obtain ⟨hkind, hclosed⟩ := enclosed_eq_ok_iff.1 h
  obtain ⟨body, hchars, hs, hbody⟩ := closeComment_alone hclosed
  refine ⟨'*' :: body, hchars, by rw [hs, List.cons_append], ?_⟩
  exact enclosed_eq_ok_iff.2 ⟨hkind, hbody⟩

theorem first_bracket (s : List Char) :
    first '[' s = match s.dropWhile (· ≠ ']') with
      | [] => .error .quotedIdentifier
      | d :: rest =>
        .ok { kind := .quotedIdentifier, chars := '[' :: s.takeWhile (· ≠ ']') ++ [d], rest } :=
  rfl

theorem takenFrom_brackets {d : Char} {s rest : List Char}
    (hrest : s.dropWhile (· ≠ ']') = d :: rest) :
    Cut.TakenFrom { kind := .quotedIdentifier, chars := '[' :: s.takeWhile (· ≠ ']') ++ [d], rest }
      '[' s := by
  obtain ⟨hd, htext⟩ := eq_of_brackets hrest
  have hpos : ∀ e ∈ s.takeWhile (· ≠ ']'), decide (e ≠ ']') = true := by
    intro e he
    simpa using List.mem_takeWhile_imp he
  refine ⟨s.takeWhile (· ≠ ']') ++ [d], rfl, htext, ?_⟩
  have hdrop : (s.takeWhile (· ≠ ']') ++ [d]).dropWhile (· ≠ ']') = [d] := by
    rw [List.dropWhile_append_of_pos hpos, hd]
    rfl
  have htake : (s.takeWhile (· ≠ ']') ++ [d]).takeWhile (· ≠ ']') = s.takeWhile (· ≠ ']') := by
    rw [List.takeWhile_append_of_pos hpos, hd]
    exact List.append_nil _
  rw [first_bracket, hdrop, htake]

/-- **A lexeme stands on its own.** What is taken from the head of a text has its first character,
leaves the rest of the text, and is taken again when nothing follows it. -/
theorem takenFrom_first {c : Char} {s : List Char} {cut : Cut} (h : first c s = .ok cut) :
    cut.TakenFrom c s := by
  have hwhole := h
  unfold first at h
  split at h
  case isTrue hblank =>
    cases h
    exact takenFrom_run (if_pos hblank)
  case isFalse hblank =>
  split at h
  case isTrue hdash =>
    obtain ⟨rfl, hnext⟩ := hdash
    obtain ⟨s, rfl⟩ := List.head?_eq_some_iff.1 hnext
    cases h
    exact takenFrom_run rfl
  case isFalse hdash =>
  split at h
  case isTrue hslash =>
    obtain ⟨rfl, hnext⟩ := hslash
    obtain ⟨s, rfl⟩ := List.head?_eq_some_iff.1 hnext
    exact takenFrom_blockComment h
  case isFalse hslash =>
  split at h
  case isTrue hquote =>
    subst hquote
    exact takenFrom_quotation (fun _ => rfl) hwhole
  case isFalse hsingle =>
  split at h
  case isTrue hquote =>
    rcases hquote with rfl | rfl <;> exact takenFrom_quotation (fun _ => rfl) hwhole
  case isFalse hdouble =>
  split at h
  case isTrue hbracket =>
    subst hbracket
    split at h
    case h_1 => cases h
    case h_2 d rest hrest =>
      cases h
      exact takenFrom_brackets hrest
  case isFalse hbracket =>
  split at h
  case isTrue hsemi =>
    subst hsemi
    cases h
    exact takenFrom_single rfl
  case isFalse hsemi =>
  split at h
  case isTrue hends =>
    cases h
    refine takenFrom_single ?_
    -- A dash or a slash opens no comment when nothing follows it.
    simp [first, hblank, hsingle, hdouble, hbracket, hsemi, hends]
  case isFalse hends =>
    cases h
    exact takenFrom_run (first_of_not_endsCode (by simpa using hends) _)

end Lexeme

/-! ## The run of the lexer -/

open Lexeme

/-- A text that begins at a byte is cut into lexemes, one taken after the other. -/
inductive CutInto : Nat → List Char → List Lexeme → Prop
  | nil (offset : Nat) : CutInto offset [] []
  | cons {offset : Nat} {c : Char} {s : List Char} {cut : Cut} {ls : List Lexeme} :
      first c s = .ok cut → CutInto (offset + byteCount cut.chars) cut.rest ls →
      CutInto offset (c :: s) ({ kind := cut.kind, chars := cut.chars, offset } :: ls)

/-- The lexemes that are found in a text are those that it is cut into. -/
theorem cutInto_of_lexemesFrom {found ls : List Lexeme} {offset : Nat} {s : List Char}
    (h : lexemesFrom found offset s = .ok ls) :
    ∃ new, ls = found.reverse ++ new ∧ CutInto offset s new := by
  fun_induction lexemesFrom found offset s with
  | case1 found offset =>
    cases h
    exact ⟨[], (List.append_nil _).symm, .nil offset⟩
  | case2 => cases h
  | case3 found offset c s cut hfirst _ ih =>
    obtain ⟨new, rfl, hnew⟩ := ih h
    exact ⟨{ kind := cut.kind, chars := cut.chars, offset } :: new, by simp, .cons hfirst hnew⟩

theorem cutInto_of_lexemes {sql : String} {ls : List Lexeme} (h : lexemes sql = .ok ls) :
    CutInto 0 sql.toList ls := by
  rw [lexemes] at h
  split at h
  case h_1 ls' hls =>
    cases h
    obtain ⟨new, rfl, hnew⟩ := cutInto_of_lexemesFrom hls
    exact hnew
  case h_2 => cases h

/-- A text that is one lexeme. -/
theorem lexemes_single {kind : LexemeKind} {c : Char} {more : List Char}
    (h : first c more = .ok { kind, chars := c :: more, rest := [] }) :
    lexemes (String.ofList (c :: more)) = .ok [{ kind, chars := c :: more, offset := 0 }] := by
  have hrun : lexemesFrom [] 0 (c :: more) = .ok [{ kind, chars := c :: more, offset := 0 }] := by
    rw [lexemesFrom]
    split
    case h_1 hfirst =>
      rw [h] at hfirst
      cases hfirst
    case h_2 hfirst =>
      rw [h] at hfirst
      cases hfirst
      rw [lexemesFrom]
      rfl
  rw [lexemes, String.toList_ofList, hrun]

namespace CutInto

variable {offset : Nat} {s : List Char} {ls : List Lexeme}

theorem length_le (h : CutInto offset s ls) : ls.length ≤ s.length := by
  induction h with
  | nil => exact Nat.le_refl _
  | cons hfirst _ ih => exact Nat.succ_le_succ (ih.trans (length_rest_first hfirst))

/-- A lexeme begins where those in front of it end. -/
theorem offset_eq (h : CutInto offset s ls) {before after : List Lexeme} {l : Lexeme}
    (hl : ls = before ++ l :: after) :
    l.offset = offset + (before.map fun m => byteCount m.chars).sum := by
  induction h generalizing before with
  | nil => simp at hl
  | @cons offset c s cut ls _ _ ih =>
    cases before with
    | nil =>
      cases hl
      rfl
    | cons m before =>
      rw [List.cons_append, List.cons.injEq] at hl
      obtain ⟨rfl, hl⟩ := hl
      rw [ih hl, List.map_cons, List.sum_cons, Nat.add_assoc]

/-- Each lexeme is the only lexeme of its own text. -/
theorem lexemes_chars (h : CutInto offset s ls) :
    ∀ l ∈ ls, lexemes (String.ofList l.chars) = .ok [{ l with offset := 0 }] := by
  induction h with
  | nil => exact nofun
  | @cons offset c s cut ls hfirst _ ih =>
    obtain ⟨more, hchars, -, halone⟩ := takenFrom_first hfirst
    refine List.forall_mem_cons.2 ⟨?_, ih⟩
    rw [hchars] at halone ⊢
    exact lexemes_single halone

end CutInto

/-- **Lexemes lose nothing.** Whatever is taken from a text has a character and leaves the rest of
the text. Where a text is cut up as a whole, its lexemes are not empty and put together are the
text, so there are no more of them than characters; each begins at the byte behind those in front of
it; and each is the only lexeme of its own text. -/
theorem lexemes_lossless (sql : String) :
    (∀ c s cut, Lexeme.first c s = .ok cut → cut.chars ≠ [] ∧ cut.chars ++ cut.rest = c :: s) ∧
    ∀ ls, lexemes sql = .ok ls →
      ls.length ≤ sql.length ∧
      (∀ l ∈ ls, l.chars ≠ []) ∧
      ls.flatMap Lexeme.chars = sql.toList ∧
      (∀ before l after, ls = before ++ l :: after →
        l.offset = (before.map fun m => (String.ofList m.chars).utf8ByteSize).sum) ∧
      ∀ l ∈ ls, lexemes (String.ofList l.chars) = .ok [{ l with offset := 0 }] := by
  refine ⟨fun c s cut h => ?_, fun ls h => ?_⟩
  · obtain ⟨more, hchars, hs, -⟩ := takenFrom_first h
    rw [hchars, hs]
    exact ⟨List.cons_ne_nil c more, List.cons_append⟩
  · have hcut := cutInto_of_lexemes h
    have hagree := agree_lexemes h
    refine ⟨hcut.length_le, hagree.not_empty, hagree.flatMap_chars, ?_, hcut.lexemes_chars⟩
    intro before l after hl
    rw [hcut.offset_eq hl, Nat.zero_add]
    simp only [utf8ByteSize_eq, String.toList_ofList]

/-- Letters of several bytes, doubled quotes, and a comment that goes on to the end. -/
theorem lexemes_lossless_of_doubled_quotes :
    ∃ ls, lexemes "é'a''b' [;]--;" = .ok ls ∧ ls.map Lexeme.offset = [0, 2, 8, 9, 12] ∧
      ls.flatMap Lexeme.chars = "é'a''b' [;]--;".toList ∧
      ∀ l ∈ ls, lexemes (String.ofList l.chars) = .ok [{ l with offset := 0 }] := by
  have h : lexemes "é'a''b' [;]--;" = .ok [⟨.code, ['é'], 0⟩,
      ⟨.stringLiteral, "'a''b'".toList, 2⟩, ⟨.trivia, [' '], 8⟩,
      ⟨.quotedIdentifier, "[;]".toList, 9⟩, ⟨.trivia, "--;".toList, 12⟩] := by
    decide +kernel
  obtain ⟨-, hlossless⟩ := lexemes_lossless "é'a''b' [;]--;"
  obtain ⟨-, -, htext, -, halone⟩ := hlossless _ h
  exact ⟨_, h, rfl, htext, halone⟩

end BoundSql
