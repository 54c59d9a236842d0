import BoundSql.Proofs.Clause.Bound
import BoundSql.Proofs.Clause.Shape
import Mathlib.Data.List.Basic

/-!
# Clauses with and without a qualifier

A clause stands inside the block of an alias when the alias qualifies all its columns.
`BoundClause.within` puts a clause there, or takes it out of every block. In the text this is seen
only where a column begins: the alias and a dot stand in front of it. `Qualifies` says so of two
texts, and `qualifies_text` that it holds of the text of a clause outside and inside a block.
-/

namespace BoundSql

/-! ## Clauses -/

/-- A target with a qualifier in place of its own. -/
def Target.within (q : Option Identifier) (t : Target) : Target :=
  { t with qualifier := q }

namespace BoundClause

mutual

/-- A clause with a qualifier in place of those of its targets. -/
def within (q : Option Identifier) : BoundClause → BoundClause
  | tests target t ts => .tests (target.within q) t ts
  | combined c b bs => .combined c (within q b) (allWithin q bs)

/-- Some clauses with a qualifier in place of those of their targets. -/
def allWithin (q : Option Identifier) : List BoundClause → List BoundClause
  | [] => []
  | b :: bs => within q b :: allWithin q bs

end

theorem allWithin_eq_map (q : Option Identifier) (l : List BoundClause) :
    allWithin q l = l.map (within q) := by
  induction l with
  | nil => rfl
  | cons b l ih => rw [allWithin, ih, List.map_cons]

theorem conjunction_map_within (q : Option Identifier) (l : List BoundClause) :
    conjunction (l.map (within q)) = (conjunction l).map (within q) := by
  match l with
  | [] => rfl
  | [b] => rfl
  | b :: b' :: l =>
    rw [List.map_cons, List.map_cons, conjunction, conjunction, Option.map_some, within,
      allWithin_eq_map, List.map_cons]

/-- A qualifier is no binding. -/
@[simp] theorem bindings_within (q : Option Identifier) (b : BoundClause) :
    (b.within q).bindings = b.bindings := by
  induction b using ind with
  | tests target t ts => rfl
  | combined c first rest ih =>
    change allBindings (allWithin q (first :: rest)) = allBindings (first :: rest)
    rw [allWithin_eq_map, allBindings_eq_flatMap, allBindings_eq_flatMap, List.flatMap_map]
    exact List.flatMap_congr ih

end BoundClause

/-! ## Texts -/

/-- The second text is the first one with a qualifier and a dot in front of each column. The first
one is text of words, parentheses and columns between double quotes, no two of which stand side by
side. -/
inductive Qualifies (q : Identifier) : List Char → List Char → Prop
  | nil : Qualifies q [] []
  | char {c : Char} {s s' : List Char} : isWordChar c = true ∨ c = '(' ∨ c = ')' →
      Qualifies q s s' → Qualifies q (c :: s) (c :: s')
  | column {i : Identifier} {s s' : List Char} : s.head? ≠ some '"' → Qualifies q s s' →
      Qualifies q (i.quoted.toList ++ s) ((q.name.toList ++ '.' :: i.quoted.toList) ++ s')

namespace Qualifies

variable {q : Identifier} {s s' r r' : List Char}

theorem append (h : Qualifies q s s') (h' : Qualifies q r r') (hr : r.head? ≠ some '"') :
    Qualifies q (s ++ r) (s' ++ r') := by
  induction h with
  | nil => exact h'
  | char hc _ ih => exact .char hc ih
  | @column i s s' hs _ ih =>
    rw [List.append_assoc, List.append_assoc]
    refine .column ?_ ih
    cases s with
    | nil => exact hr
    | cons c s => exact hs

/-- Words may stand in front of anything. -/
theorem words_append (hs : s.all isWordChar = true) (h : Qualifies q r r') :
    Qualifies q (s ++ r) (s ++ r') := by
  induction s with
  | nil => exact h
  | cons c s ih =>
    rw [List.all_cons, Bool.and_eq_true] at hs
    exact .char (.inl hs.1) (ih hs.2)

theorem words (hs : s.all isWordChar = true) : Qualifies q s s := by
  have h : Qualifies q (s ++ []) (s ++ []) := words_append hs .nil
  rwa [List.append_nil] at h

theorem append_words (h : Qualifies q s s') (hr : r.all isWordChar = true) :
    Qualifies q (s ++ r) (s' ++ r) :=
  h.append (words hr) fun hquote => Piece.not_mem_of_words hr rfl (List.mem_of_head? hquote)

theorem parens {text text' : String} (h : Qualifies q text.toList text'.toList) :
    Qualifies q ("(" ++ text ++ ")").toList ("(" ++ text' ++ ")").toList := by
  have hlist : ∀ t : String, ("(" ++ t ++ ")").toList = '(' :: (t.toList ++ [')']) := by simp
  rw [hlist, hlist]
  exact .char (.inr (.inl rfl)) (h.append (.char (.inr (.inr rfl)) .nil) (by decide))

/-- Texts with some words between each two. -/
theorem join {α : Type} {f g : α → String} {separator : String} (hne : separator.toList ≠ [])
    (hwords : separator.toList.all isWordChar = true) {l : List α}
    (h : ∀ a ∈ l, Qualifies q (f a).toList (g a).toList) :
    Qualifies q (separator.intercalate (l.map f)).toList
      (separator.intercalate (l.map g)).toList := by
  induction l with
  | nil => exact .nil
  | cons a l ih =>
    rw [List.forall_mem_cons] at h
    cases l with
    | nil => simpa using h.1
    | cons b l =>
      simp only [List.map_cons, String.intercalate_cons_cons, String.toList_append,
        List.append_assoc] at ih ⊢
      refine h.1.append (words_append hwords (ih h.2)) fun hquote => ?_
      obtain ⟨c, s, hs⟩ := List.exists_cons_of_ne_nil hne
      rw [hs] at hquote hwords
      exact Piece.not_mem_of_words hwords rfl (List.mem_of_head? hquote)

/-- A text without columns has nothing to qualify. -/
theorem of_clauseText (h : ClauseText (fun _ => False) s) : Qualifies q s s := by
  induction h with
  | nil => exact .nil
  | char hc _ ih => exact .char hc ih
  | column hi => exact hi.elim

end Qualifies

/-! ## The text of clauses -/

variable (q : Identifier)

theorem Test.qualifies_text (t : Test) : Qualifies q t.text.toList t.text.toList :=
  .of_clauseText (t.piece_text _).text

theorem Identifier.qualifies_qualified (column : Identifier) :
    Qualifies q (column.qualified none).toList (column.qualified (some q.name)).toList := by
  have h : Qualifies q (column.quoted.toList ++ [])
      ((q.name.toList ++ '.' :: column.quoted.toList) ++ []) := .column nofun .nil
  simpa [Identifier.qualified] using h

theorem Target.qualifies_text (t : Target) :
    Qualifies q (t.within none).text.toList (t.within (some q)).text.toList := by
  obtain ⟨qualifier, column, path⟩ := t
  have hcolumn := Identifier.qualifies_qualified q column
  cases path with
  | none => exact hcolumn
  | some p =>
    have htext : ∀ o : Option Identifier, (Target.mk o column (some p)).text.toList =
        "json_extract".toList ++
          ("(" ++ (column.qualified (o.map Identifier.name) ++ ", ?") ++ ")").toList := by
      intro o
      simp [Target.text, JsonPath.extractText]
    rw [Target.within, Target.within, htext, htext]
    refine .words_append (by decide) (.parens ?_)
    rw [String.toList_append, String.toList_append]
    exact hcolumn.append_words (by decide)

namespace BoundClause

/-- **The text of a clause in a block** is its text outside, with the alias of the block and a dot
in front of each column. -/
theorem qualifies_text (b : BoundClause) :
    Qualifies q (b.within none).clause.text.toList (b.within (some q)).clause.text.toList := by
  induction b using ind with
  | tests target t ts =>
    refine .parens (.join (by decide) (by decide) fun test _ => ?_)
    simp only [String.toList_append, List.append_assoc]
    refine (target.qualifies_text q).append (.words_append (by decide) (test.qualifies_text q)) ?_
    simp
  | combined c first rest ih =>
    have htext : ∀ o : Option Identifier, ((combined c first rest).within o).clause.text =
        "(" ++ c.joiner.intercalate ((first :: rest).map fun b => (b.within o).clause.text) ++
          ")" := by
      intro o
      rw [within, clause, Clause.text, ← clauses, texts_clauses, allWithin_eq_map, ← List.map_cons,
        List.map_map]
      rfl
    rw [htext, htext]
    exact .parens (.join c.joiner_ne_nil c.isWordChar_joiner ih)

end BoundClause

end BoundSql
