import BoundSql.Proofs.Sql.Scan
import BoundSql.Proofs.Sql.Unambiguous

/-!
# Reading the text of a clause

The text of a clause is read back as the clause. `BoundClause.expr` is the expression that a clause
with its operands stands for, and `scans_clause` says that the text of the clause, with its
bindings, is scanned to the tokens of that expression. `Fragment.ReadsAs` is the reading of a
fragment, and no fragment has two (`Fragment.ReadsAs.unique`).
-/

namespace BoundSql

open Sql

/-! ## Readings -/

/-- A fragment reads as a boolean expression when its text is scanned to the tokens of the
expression, with its bindings in place of its placeholders. -/
def Fragment.ReadsAs (f : Fragment) (e : Sql.Expr) : Prop :=
  e.WellGrouped ∧ tokens? f.text f.bindings = some e.tokens

/-- A fragment reads as one expression at most. -/
theorem Fragment.ReadsAs.unique {f : Fragment} {e e' : Sql.Expr} (h : f.ReadsAs e)
    (h' : f.ReadsAs e') : e = e' := by
  have htokens : e.tokens = e'.tokens := Option.some.inj (h.2.symm.trans h'.2)
  exact Expr.eq_of_tokens_eq h.1 h'.1 htokens

/-! ## The expression of a clause -/

/-- What a target is about. -/
def Target.subject (t : Target) : Subject where
  qualifier := t.qualifier.map Identifier.name
  column := t.column.name
  path := t.path.map .text

namespace BoundClause

mutual

/-- The expression that a clause stands for. -/
def expr : BoundClause → Expr
  | tests target t ts =>
    .group (.join .and (.atom ⟨target.subject, t⟩) (ts.map fun t => .atom ⟨target.subject, t⟩))
  | combined c b bs => .group (.join c b.expr (exprs bs))

/-- The expressions that some clauses stand for. -/
def exprs : List BoundClause → List Expr
  | [] => []
  | b :: bs => b.expr :: exprs bs

end

theorem exprs_eq_map (bs : List BoundClause) : exprs bs = bs.map expr := by
  induction bs with
  | nil => rfl
  | cons b bs ih => rw [exprs, ih, List.map_cons]

@[simp] theorem level_expr (b : BoundClause) : b.expr.level = 0 := by
  cases b <;> rfl

/-- Clauses are well grouped: whatever they combine stands between parentheses. -/
theorem wellGrouped_expr (b : BoundClause) : b.expr.WellGrouped := by
  induction b using ind with
  | tests target t ts =>
    refine Expr.wellGrouped_join (Expr.allWellGrouped_iff.2 ?_)
    intro e he
    rw [List.mem_cons, List.mem_map] at he
    rcases he with rfl | ⟨t', -, rfl⟩
    · exact ⟨Nat.one_pos, trivial⟩
    · exact ⟨Nat.one_pos, trivial⟩
  | combined c first rest ih =>
    refine Expr.wellGrouped_join (Expr.allWellGrouped_iff.2 ?_)
    rw [exprs_eq_map, ← List.map_cons, List.forall_mem_map]
    intro b hb
    rw [level_expr]
    exact ⟨by cases c <;> decide, ih b hb⟩

end BoundClause

/-! ## Scanning targets and tests -/

theorem scans_qualified (column : Identifier) (qualifier : Option Identifier) :
    Scans [] (column.qualified (qualifier.map Identifier.name)).toList
      (columnTokens (qualifier.map Identifier.name) column.name) := by
  cases qualifier with
  | none => exact scans_quoted column
  | some q =>
    have htext : (column.qualified (some q.name)).toList =
        q.name.toList ++ '.' :: column.quoted.toList := by
      simp [Identifier.qualified]
    have hdot : Runs .between [] ['.'] [.dot] .between := .single fun _ => rfl
    rw [Option.map_some, htext]
    exact (scans_word q).append (by decide) (.after_runs hdot (scans_quoted column))

theorem scans_target (t : Target) : Scans t.bindings t.text.toList t.subject.tokens := by
  obtain ⟨qualifier, column, path⟩ := t
  cases path with
  | none => exact scans_qualified column qualifier
  | some p =>
    have htext : (Target.mk qualifier column (some p)).text.toList = "json_extract(".toList ++
        ((column.qualified (qualifier.map Identifier.name)).toList ++ ", ?)".toList) := by
      simp [Target.text, JsonPath.extractText]
    have hopen : Runs .between [] "json_extract(".toList [.word "json_extract", .opening]
        .between := fun _ => rfl
    have hclose : Runs .between [.text p] ", ?)".toList [.comma, .operand (.text p), .closing]
        .between := fun _ => rfl
    rw [htext]
    exact .after_runs hopen ((scans_qualified column qualifier).append (by decide)
      (.of_runs hclose))

/-- A list of placeholders takes a binding each. -/
theorem runs_placeholders {bs : List Binding} (h : bs ≠ []) :
    Runs .between bs (",".intercalate (List.replicate bs.length "?")).toList (listTokens bs)
      .between := by
  induction bs with
  | nil => exact absurd rfl h
  | cons b bs ih =>
    cases bs with
    | nil =>
      have htext : (",".intercalate (List.replicate [b].length "?")).toList = ['?'] := by simp
      rw [htext]
      exact fun _ => rfl
    | cons b' bs =>
      have hfirst : Runs .between [b] "?,".toList [.operand b, .comma] .between := fun _ => rfl
      have htext : (",".intercalate (List.replicate (b :: b' :: bs).length "?")).toList =
          "?,".toList ++ (",".intercalate (List.replicate (b' :: bs).length "?")).toList := by
        simp [List.replicate_succ]
      rw [htext]
      exact hfirst.append (ih (List.cons_ne_nil b' bs))

/-- A list of placeholders behind some keywords. -/
theorem scans_placeholderList {bs : List Binding} (h : bs ≠ []) (keyword : String)
    (ts : List Token) (hkeyword : Runs .between [] keyword.toList ts .between) :
    Scans bs (keyword ++ Test.placeholderList bs.length).toList
      (ts ++ .opening :: (listTokens bs ++ [.closing])) := by
  have htext : (keyword ++ Test.placeholderList bs.length).toList = keyword.toList ++ ("(".toList ++
      ((",".intercalate (List.replicate bs.length "?")).toList ++ ")".toList)) := by
    simp [Test.placeholderList]
  have hopen : Runs .between [] "(".toList [.opening] .between := fun _ => rfl
  have hclose : Runs .between [] ")".toList [.closing] .between := fun _ => rfl
  have hlist := hkeyword.append (hopen.append ((runs_placeholders h).append hclose))
  rw [List.append_nil] at hlist
  rw [htext]
  exact .of_runs hlist

/-- The text of a test, with its operands, is scanned to its tokens. -/
theorem scans_test (t : BoundTest) :
    Scans t.operands t.test.text.toList (testTokens t.test t.operands) := by
  obtain ⟨test, bs, takes⟩ := t
  have hone : bs.length = 1 → ∃ b, bs = [b] := List.length_eq_one_iff.1
  cases test with
  | isNull =>
    obtain rfl := List.length_eq_zero_iff.1 takes
    rw [Test.text]
    exact ⟨.word "LLUN".toList, [.word "IS"], fun _ => rfl, rfl, rfl⟩
  | isNotNull =>
    obtain rfl := List.length_eq_zero_iff.1 takes
    rw [Test.text]
    exact ⟨.word "LLUN".toList, [.word "IS", .word "NOT"], fun _ => rfl, rfl, rfl⟩
  | likeNoCase =>
    obtain ⟨b, rfl⟩ := hone takes
    rw [Test.text, Operator.sql]
    exact ⟨.word "ESACON".toList, [.word "LIKE", .operand b, .word "COLLATE"], fun _ => rfl, rfl,
      rfl⟩
  | oneOf n =>
    obtain ⟨rfl, hne⟩ := takes
    exact scans_placeholderList hne "IN " [.word "IN"] fun _ => rfl
  | noneOf n =>
    obtain ⟨rfl, hne⟩ := takes
    exact scans_placeholderList hne "NOT IN " [.word "NOT", .word "IN"] fun _ => rfl
  | _ =>
    obtain ⟨b, rfl⟩ := hone takes
    simp only [Test.text, Operator.sql]
    exact .of_runs fun _ => rfl

/-! ## Scanning clauses -/

theorem Sql.Scans.parens {bs : List Binding} {text : String} {ts : List Token}
    (h : Scans bs text.toList ts) :
    Scans bs ("(" ++ text ++ ")").toList (.opening :: (ts ++ [.closing])) := by
  have htext : ("(" ++ text ++ ")").toList = "(".toList ++ (text.toList ++ ")".toList) := by
    simp
  have hopen : Runs .between [] "(".toList [.opening] .between := fun _ => rfl
  have hclose : Runs .between [] ")".toList [.closing] .between := fun _ => rfl
  have hall := Scans.after_runs hopen (h.append (by decide) (.of_runs hclose))
  rw [List.append_nil] at hall
  rw [htext]
  exact hall

/-- Pieces with what a connective writes between each two. -/
theorem scans_join {α : Type} (c : Combinator) (bindings : α → List Binding) (text : α → String)
    (tokens : α → List Token) (l : List α) (a : α)
    (h : ∀ x ∈ a :: l, Scans (bindings x) (text x).toList (tokens x)) :
    Scans ((a :: l).flatMap bindings) (c.joiner.intercalate ((a :: l).map text)).toList
      (tokens a ++ l.flatMap fun x => .word (connective c) :: tokens x) := by
  induction l generalizing a with
  | nil => simpa using h
  | cons x l ih =>
    rw [List.forall_mem_cons] at h
    have hjoiner : ∃ s, c.joiner.toList = ' ' :: s ∧
        Runs .between [] c.joiner.toList [.word (connective c)] .between := by
      cases c with
      | and => exact ⟨_, rfl, fun _ => rfl⟩
      | or => exact ⟨_, rfl, fun _ => rfl⟩
    obtain ⟨s, hblank, hruns⟩ := hjoiner
    have htail := Scans.after_runs hruns (ih x h.2)
    rw [hblank, List.cons_append] at htail
    have hall := h.1.append (by decide) htail
    rw [List.map_cons, List.map_cons, String.intercalate_cons_cons, String.toList_append,
      String.toList_append, hblank, List.append_assoc, List.cons_append, List.flatMap_cons,
      List.flatMap_cons]
    exact hall

namespace BoundClause

theorem tailTokens_map {α : Type} (c : Combinator) (f : α → Expr) (l : List α) :
    Expr.tailTokens c (l.map f) = l.flatMap fun x => .word (connective c) :: (f x).tokens := by
  induction l with
  | nil => rfl
  | cons x l ih => rw [List.map_cons, Expr.tailTokens, ih, List.flatMap_cons, List.cons_append]

/-- The text of a clause, with its bindings, is scanned to the tokens of its expression. -/
theorem scans_clause (b : BoundClause) : Scans b.bindings b.clause.text.toList b.expr.tokens := by
  induction b using ind with
  | tests target t ts =>
    have htest : ∀ t : BoundTest, Scans (target.bindings ++ t.operands)
        (target.text ++ " " ++ t.test.text).toList (Atom.tokens ⟨target.subject, t⟩) := by
      intro t
      have hblank : Runs .between [] [' '] [] .between := .single fun _ => rfl
      have htext : (target.text ++ " " ++ t.test.text).toList =
          target.text.toList ++ ' ' :: t.test.text.toList := by
        simp
      rw [htext]
      exact (scans_target target).append (by decide) (.after_runs hblank (scans_test t))
    have hjoin := scans_join .and (fun t : BoundTest => target.bindings ++ t.operands) _ _ ts t
      fun t _ => htest t
    rw [clause, Clause.text, bindings, expr, Expr.tokens, Expr.tokens_join, tailTokens_map,
      ← List.map_cons, List.map_map]
    exact hjoin.parens
  | combined c first rest ih =>
    have hjoin := scans_join c bindings _ _ rest first ih
    rw [clause, Clause.text, Clause.texts, texts_clauses, bindings, allBindings_eq_flatMap, expr,
      Expr.tokens, Expr.tokens_join, exprs_eq_map, tailTokens_map]
    exact hjoin.parens

/-- **The text of a clause is read back**: between parentheses and with its bindings, it reads as
the expression of the clause. -/
theorem readsAs_expr (b : BoundClause) :
    Fragment.ReadsAs { text := "(" ++ b.clause.text ++ ")", bindings := b.bindings }
      (.group b.expr) :=
  ⟨b.wellGrouped_expr, b.scans_clause.parens.tokens?_eq⟩

/-! ## Truth -/

variable (I : Interpretation)

theorem truth_expr_tests (target : Target) (t : BoundTest) (ts : List BoundTest) :
    (tests target t ts).expr.truth I = Combinator.and.ofList ((t :: ts).map fun t =>
      I (target.qualifier.map Identifier.name) target.column.name (target.path.map .text) t.test
        t.operands) := by
  rw [expr, Expr.truth, Expr.truth_join, Expr.tailTruth_eq, List.map_map, List.map_cons,
    Combinator.ofList_cons]
  rfl

theorem truth_expr_combined (c : Combinator) (b : BoundClause) (bs : List BoundClause) :
    (combined c b bs).expr.truth I = c.ofList ((b :: bs).map fun b => b.expr.truth I) := by
  rw [expr, Expr.truth, Expr.truth_join, Expr.tailTruth_eq, exprs_eq_map, List.map_map,
    List.map_cons, Combinator.ofList_cons]
  rfl

/-- The clauses of a filter object hold together when each of them holds. -/
theorem truth_conjunction {l : List BoundClause} {b : BoundClause} (h : conjunction l = some b) :
    b.expr.truth I = Combinator.and.ofList (l.map fun b => b.expr.truth I) := by
  match l, h with
  | [b], h =>
    cases h
    exact (Combinator.of_unit _ _).symm
  | b :: b' :: l, h =>
    cases h
    exact truth_expr_combined I .and b (b' :: l)

end BoundClause

end BoundSql
