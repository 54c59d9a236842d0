import BoundSql.JsonPath

/-!
# Clauses

A `Clause` is the boolean expression that a filter asks for, as a tree: tests of a target, and
conjunctions and disjunctions of clauses. It holds no operand. Where an operand is compared, the
text of the clause has a placeholder, and the operand goes its own way into the bindings; so no
operand can become text.

* `Target` is what is tested: a column, or a place inside a JSON column.
* `Test` is how it is tested.
* `Clause.text` writes a clause as SQL.
-/

namespace BoundSql

/-- What a clause tests: a column, qualified by an alias if there is one, or a place inside it. -/
structure Target where
  qualifier : Option Identifier
  column : Identifier
  path : Option String
  deriving DecidableEq, Repr

namespace Target

/-- The target that a field names, inside the block of an alias if there is one. -/
def ofField (qualifier : Option Identifier) (field : String) : Except Error Target :=
  if JsonPath.isDotted field then do
    let p ← JsonPath.ofField field
    let column ← Identifier.ofName p.column
    pure { qualifier, column, path := some p.path }
  else do
    let column ← Identifier.ofName field
    pure { qualifier, column, path := none }

/-- The SQL text of a target. -/
def text (t : Target) : String :=
  match t.path with
  | none => t.column.qualified (t.qualifier.map Identifier.name)
  | some _ => JsonPath.extractText t.column (t.qualifier.map Identifier.name)

/-- The bindings of the text of a target: its path, if it has one. -/
def bindings (t : Target) : List Binding :=
  match t.path with
  | none => []
  | some p => [.text p]

end Target

/-- How a target is tested. -/
inductive Test
  | equal
  | isNull
  | isNotNull
  | greater
  | atLeast
  | less
  | atMost
  | notEqual
  | like
  | likeNoCase
  | regex
  /-- Equal to one of so many operands. -/
  | oneOf (items : Nat)
  /-- Equal to none of so many operands. -/
  | noneOf (items : Nat)
  deriving DecidableEq, Repr

namespace Test

/-- A list of `n` placeholders. -/
def placeholderList (n : Nat) : String :=
  "(" ++ ",".intercalate (List.replicate n "?") ++ ")"

/-- The SQL text of a test, which follows the text of its target. -/
def text : Test → String
  | equal => "= ?"
  | isNull => "IS NULL"
  | isNotNull => "IS NOT NULL"
  | greater => Operator.greater.sql
  | atLeast => Operator.atLeast.sql
  | less => Operator.less.sql
  | atMost => Operator.atMost.sql
  | notEqual => Operator.notEqual.sql
  | like => Operator.like.sql
  | likeNoCase => Operator.likeNoCase.sql
  | regex => Operator.regex.sql
  | oneOf n => "IN " ++ placeholderList n
  | noneOf n => "NOT IN " ++ placeholderList n

/-- The number of operands of a test. -/
def arity : Test → Nat
  | isNull | isNotNull => 0
  | oneOf n | noneOf n => n
  | _ => 1

end Test

/-- A boolean expression over tests of targets. -/
inductive Clause
  /-- Some tests of one target, all of which are to hold. -/
  | tests (target : Target) (tests : List Test)
  /-- Clauses of which all or some are to hold. -/
  | combined (c : Combinator) (clauses : List Clause)
  deriving Repr

namespace Clause

mutual

/-- The SQL text of a clause, always between parentheses. -/
def text : Clause → String
  | tests target ts =>
    "(" ++ " AND ".intercalate (ts.map fun t => target.text ++ " " ++ t.text) ++ ")"
  | combined c clauses => "(" ++ c.joiner.intercalate (texts clauses) ++ ")"

/-- The SQL texts of some clauses. -/
def texts : List Clause → List String
  | [] => []
  | c :: cs => text c :: texts cs

end

end Clause

end BoundSql
