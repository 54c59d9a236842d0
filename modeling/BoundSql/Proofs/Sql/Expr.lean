import BoundSql.Proofs.Clause.Bound
import BoundSql.Proofs.Sql.Truth

/-!
# Boolean expressions of SQL

`Sql.Expr` is the syntax tree of a boolean expression: atomic predicates, parentheses, and chains
of one connective. A chain has all its members side by side, so trees do not tell how a chain is
grouped. `Expr.WellGrouped` says that connectives bind as they do in SQL, AND before OR.

* `Expr.tokens` writes a tree as tokens.
* `Expr.truth` is its truth value, once it is known which atomic predicates hold.
-/

namespace BoundSql

namespace Sql

/-- A token of an expression, with the value of a placeholder in its place. -/
inductive Token
  | opening
  | closing
  | comma
  | dot
  | word (w : String)
  /-- A name between double quotes. -/
  | name (s : String)
  /-- A comparison sign. -/
  | symbol (s : String)
  | operand (b : Binding)
  deriving DecidableEq, Repr

/-- What an atomic predicate is about: a column, which may belong to an alias, or a place inside
it. -/
structure Subject where
  qualifier : Option String
  column : String
  path : Option Binding
  deriving DecidableEq, Repr

/-- An atomic predicate: a test of a subject. -/
structure Atom where
  subject : Subject
  test : BoundTest

/-- Which atomic predicates hold, by the alias, the column, the path, the test and its operands. -/
abbrev Interpretation :=
  Option String → String → Option Binding → Test → List Binding → Truth

/-- A boolean expression. -/
inductive Expr
  | atom (a : Atom)
  /-- An expression between parentheses. -/
  | group (e : Expr)
  /-- Two or more expressions with a connective between each two. -/
  | chain (c : Combinator) (first second : Expr) (rest : List Expr)

/-! ## Connectives and tokens -/

/-- The word of a connective. -/
def connective : Combinator → String
  | .and => "AND"
  | .or => "OR"

/-- How loosely a connective binds. -/
def looseness : Combinator → Nat
  | .and => 1
  | .or => 2

/-- The tokens of a column. -/
def columnTokens (qualifier : Option String) (column : String) : List Token :=
  match qualifier with
  | some q => [.word q, .dot, .name column]
  | none => [.name column]

/-- The tokens of a subject. -/
def Subject.tokens (s : Subject) : List Token :=
  match s.path with
  | none => columnTokens s.qualifier s.column
  | some p =>
    [.word "json_extract", .opening] ++ columnTokens s.qualifier s.column ++
      [.comma, .operand p, .closing]

/-- The tokens of a list of operands, with a comma between each two. -/
def listTokens (bs : List Binding) : List Token :=
  (bs.map Token.operand).intersperse .comma

/-- The tokens of a test with its operands. -/
def testTokens (t : Test) (operands : List Binding) : List Token :=
  match t with
  | .equal => .symbol "=" :: operands.map .operand
  | .isNull => [.word "IS", .word "NULL"]
  | .isNotNull => [.word "IS", .word "NOT", .word "NULL"]
  | .greater => .symbol ">" :: operands.map .operand
  | .atLeast => .symbol ">=" :: operands.map .operand
  | .less => .symbol "<" :: operands.map .operand
  | .atMost => .symbol "<=" :: operands.map .operand
  | .notEqual => .symbol "<>" :: operands.map .operand
  | .like => .word "LIKE" :: operands.map .operand
  | .likeNoCase => .word "LIKE" :: (operands.map .operand ++ [.word "COLLATE", .word "NOCASE"])
  | .regex => .word "REGEXP" :: operands.map .operand
  | .oneOf _ => [.word "IN", .opening] ++ listTokens operands ++ [.closing]
  | .noneOf _ => [.word "NOT", .word "IN", .opening] ++ listTokens operands ++ [.closing]

/-- The tokens of an atomic predicate. -/
def Atom.tokens (a : Atom) : List Token :=
  a.subject.tokens ++ testTokens a.test.test a.test.operands

namespace Expr

mutual

/-- The tokens of an expression. -/
def tokens : Expr → List Token
  | atom a => a.tokens
  | group e => .opening :: (tokens e ++ [.closing])
  | chain c e e' es => tokens e ++ .word (connective c) :: (tokens e' ++ tailTokens c es)

/-- The tokens of expressions that go on a chain. -/
def tailTokens (c : Combinator) : List Expr → List Token
  | [] => []
  | e :: es => .word (connective c) :: (tokens e ++ tailTokens c es)

end

/-! ## How connectives bind -/

/-- How loosely the parts of an expression are held together. -/
def level : Expr → Nat
  | atom _ | group _ => 0
  | chain c _ _ _ => looseness c

mutual

/-- A chain has only members that are held together more tightly than it is. -/
def WellGrouped : Expr → Prop
  | atom _ => True
  | group e => WellGrouped e
  | chain c e e' es => (e.level < looseness c ∧ WellGrouped e) ∧
      (e'.level < looseness c ∧ WellGrouped e') ∧ AllWellGrouped (looseness c) es

/-- Some expressions are well grouped and held together more tightly than a level. -/
def AllWellGrouped (k : Nat) : List Expr → Prop
  | [] => True
  | e :: es => (e.level < k ∧ WellGrouped e) ∧ AllWellGrouped k es

end

/-! ## Truth -/

mutual

/-- The truth value of an expression. -/
def truth (I : Interpretation) : Expr → Truth
  | atom a => I a.subject.qualifier a.subject.column a.subject.path a.test.test a.test.operands
  | group e => truth I e
  | chain c e e' es => c.of (truth I e) (c.of (truth I e') (tailTruth I c es))

/-- The truth value of expressions that go on a chain. -/
def tailTruth (I : Interpretation) (c : Combinator) : List Expr → Truth
  | [] => c.unit
  | e :: es => c.of (truth I e) (tailTruth I c es)

end

/-! ## Chains of any length -/

/-- An expression with others behind it, as a chain if there are others. -/
def join (c : Combinator) (e : Expr) : List Expr → Expr
  | [] => e
  | e' :: es => chain c e e' es

variable {c : Combinator} {e : Expr} {es : List Expr}

theorem tokens_join : (join c e es).tokens = e.tokens ++ tailTokens c es := by
  cases es with
  | nil => rw [join, tailTokens, List.append_nil]
  | cons e' es => rw [join, tokens, tailTokens]

theorem truth_join (I : Interpretation) :
    (join c e es).truth I = c.of (e.truth I) (tailTruth I c es) := by
  cases es with
  | nil => rw [join, tailTruth, Combinator.of_unit]
  | cons e' es => rw [join, truth, tailTruth]

theorem tailTruth_eq (I : Interpretation) : tailTruth I c es = c.ofList (es.map (truth I)) := by
  induction es with
  | nil => rfl
  | cons e es ih => rw [tailTruth, ih, List.map_cons, Combinator.ofList_cons]

theorem allWellGrouped_iff {k : Nat} :
    AllWellGrouped k es ↔ ∀ e ∈ es, e.level < k ∧ e.WellGrouped := by
  induction es with
  | nil => simp [AllWellGrouped]
  | cons e es ih => rw [AllWellGrouped, ih, List.forall_mem_cons]

theorem wellGrouped_chain_iff {e' : Expr} :
    (chain c e e' es).WellGrouped ↔ AllWellGrouped (looseness c) (e :: e' :: es) := by
  rw [WellGrouped, AllWellGrouped, AllWellGrouped]

/-- Members that are tight enough for a connective make a chain of it. -/
theorem wellGrouped_join (h : AllWellGrouped (looseness c) (e :: es)) :
    (join c e es).WellGrouped := by
  cases es with
  | nil => exact h.1.2
  | cons e' es => exact wellGrouped_chain_iff.2 h

/-- An expression that is no looser than a connective is a chain of it, if a short one. -/
theorem exists_join (hwg : e.WellGrouped) (hlevel : e.level ≤ looseness c) :
    ∃ f es, e = join c f es ∧ AllWellGrouped (looseness c) (f :: es) := by
  by_cases hlt : e.level < looseness c
  · exact ⟨e, [], rfl, ⟨hlt, hwg⟩, trivial⟩
  · cases e with
    | atom a =>
      cases c <;> simp [level, looseness] at hlt
    | group e => cases c <;> simp [level, looseness] at hlt
    | chain c' e e' es =>
      obtain rfl : c' = c := by
        rw [level] at hlt hlevel
        cases c' <;> cases c <;> simp [looseness] at hlt hlevel ⊢
      exact ⟨e, e' :: es, rfl, wellGrouped_chain_iff.1 hwg⟩

end Expr

end Sql

end BoundSql
