/-!
# Limits

What a filter may use up and how long a query may be. `Limit` names the four limits, and `Limits`
holds a number for each.
-/

namespace BoundSql

/-- The limits on filters and queries. -/
structure Limits where
  /-- The deepest filter object allowed; the outermost one is at depth one. -/
  nestingDepth : Nat := 10
  /-- The most combinators and operators that a filter may use. -/
  operators : Nat := 100
  /-- The most items that a list of values may have. -/
  listItems : Nat := 999
  /-- The longest text, in bytes, that a query may have. -/
  queryLength : Nat := 100000
  deriving DecidableEq, Repr

/-- The names of the limits. -/
inductive Limit
  | nestingDepth
  | operators
  | listItems
  | queryLength
  deriving DecidableEq, Repr

namespace Limit

/-- All limits. -/
def all : List Limit :=
  [nestingDepth, operators, listItems, queryLength]

/-- The key of a limit in a limits document. -/
def key : Limit → String
  | nestingDepth => "max_nesting_depth"
  | operators => "max_operators"
  | listItems => "max_in_items"
  | queryLength => "max_query_length"

/-- The limit of a key, if there is one. -/
def ofKey? (key : String) : Option Limit :=
  all.find? fun l => l.key = key

end Limit

namespace Limits

/-- The number that a limit is at. -/
def get (ls : Limits) : Limit → Nat
  | .nestingDepth => ls.nestingDepth
  | .operators => ls.operators
  | .listItems => ls.listItems
  | .queryLength => ls.queryLength

/-- The limits with one of them set to a number. -/
def set (ls : Limits) (l : Limit) (n : Nat) : Limits :=
  match l with
  | .nestingDepth => { ls with nestingDepth := n }
  | .operators => { ls with operators := n }
  | .listItems => { ls with listItems := n }
  | .queryLength => { ls with queryLength := n }

@[simp] theorem get_set_self (ls : Limits) (l : Limit) (n : Nat) : (ls.set l n).get l = n := by
  cases l <;> rfl

theorem get_set_of_ne (ls : Limits) {l m : Limit} (h : l ≠ m) (n : Nat) :
    (ls.set l n).get m = ls.get m := by
  cases l <;> cases m <;> first | rfl | exact absurd rfl h

end Limits

end BoundSql
