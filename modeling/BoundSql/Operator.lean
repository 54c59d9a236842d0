/-!
# Operators and combinators

The vocabulary of a filter. An `Operator` is a key of an operator object such as `"gte"`, a
`Combinator` one of the keys `"and"` and `"or"` that take a list of filters.
-/

namespace BoundSql

/-- A comparison, membership or pattern test that a filter can ask of a field. -/
inductive Operator
  | greater
  | atLeast
  | less
  | atMost
  /-- Different from a value, or not null when compared with null. -/
  | notEqual
  /-- Equal to some item of a list. -/
  | oneOf
  /-- Equal to no item of a list. -/
  | noneOf
  | like
  /-- Pattern match that does not tell letter cases apart. -/
  | likeNoCase
  | regex
  /-- Whether the field is there at all. It decides alone. -/
  | present
  deriving DecidableEq, Repr

namespace Operator

/-- All operators, in the order of the reference table. -/
def all : List Operator :=
  [greater, atLeast, less, atMost, notEqual, oneOf, noneOf, like, likeNoCase, regex, present]

/-- The key that stands for the operator in a filter. -/
def name : Operator → String
  | greater => "gt"
  | atLeast => "gte"
  | less => "lt"
  | atMost => "lte"
  | notEqual => "ne"
  | oneOf => "in"
  | noneOf => "nin"
  | like => "like"
  | likeNoCase => "ilike"
  | regex => "regex"
  | present => "exists"

/-- The SQL of the operator as the reference table shows it. -/
def sql : Operator → String
  | greater => "> ?"
  | atLeast => ">= ?"
  | less => "< ?"
  | atMost => "<= ?"
  | notEqual => "<> ?"
  | oneOf => "IN (?,...)"
  | noneOf => "NOT IN (?,...)"
  | like => "LIKE ?"
  | likeNoCase => "LIKE ? COLLATE NOCASE"
  | regex => "REGEXP ?"
  | present => "IS NOT NULL"

/-- What the operand must be, in words. -/
def operand : Operator → String
  | greater | atLeast | less | atMost => "a scalar"
  | notEqual => "a scalar or null"
  | oneOf | noneOf => "a non-empty array"
  | like | likeNoCase | regex => "a string"
  | present => "a boolean"

/-- The operator of a key, if there is one. Keys are compared as they stand, letter case
included. -/
def ofName? (key : String) : Option Operator :=
  all.find? fun op => op.name = key

@[simp] theorem ofName?_name (op : Operator) : ofName? op.name = some op := by
  cases op <;> rfl

end Operator

/-- How a list of filters is taken together. -/
inductive Combinator
  | and
  | or
  deriving DecidableEq, Repr

namespace Combinator

/-- The key that stands for the combinator in a filter. -/
def key : Combinator → String
  | and => "and"
  | or => "or"

/-- What the combinator writes between two clauses. -/
def joiner : Combinator → String
  | and => " AND "
  | or => " OR "

end Combinator

end BoundSql
