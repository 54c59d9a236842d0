import BoundSql.Operator

/-!
# Truth in SQL

A condition of SQL holds, does not hold, or is unknown, as a comparison with null is.
`Combinator.of` takes two truth values together and `Combinator.ofList` any number of them. The
order and the grouping in which they are taken together do not matter (`ofList_perm`, `of_assoc`).
-/

namespace BoundSql

/-- A truth value of SQL. -/
inductive Truth
  | no
  /-- What SQL writes as null. -/
  | unknown
  | yes
  deriving DecidableEq, Repr

namespace Combinator

/-- Two truth values taken together: the lesser for a conjunction, the greater for a disjunction. -/
def of : Combinator → Truth → Truth → Truth
  | and, .no, _ | and, _, .no => .no
  | and, .yes, t | and, t, .yes => t
  | or, .yes, _ | or, _, .yes => .yes
  | or, .no, t | or, t, .no => t
  | _, .unknown, .unknown => .unknown

/-- The truth value of nothing taken together. -/
def unit : Combinator → Truth
  | and => .yes
  | or => .no

/-- Any number of truth values taken together. -/
def ofList (c : Combinator) (l : List Truth) : Truth :=
  l.foldr c.of c.unit

theorem of_comm (c : Combinator) (s t : Truth) : c.of s t = c.of t s := by
  cases c <;> cases s <;> cases t <;> rfl

theorem of_assoc (c : Combinator) (s t u : Truth) : c.of (c.of s t) u = c.of s (c.of t u) := by
  cases c <;> cases s <;> cases t <;> cases u <;> rfl

@[simp] theorem of_unit (c : Combinator) (t : Truth) : c.of t c.unit = t := by
  cases c <;> cases t <;> rfl

theorem of_left_comm (c : Combinator) (s t u : Truth) : c.of s (c.of t u) = c.of t (c.of s u) := by
  rw [← of_assoc, c.of_comm s t, of_assoc]

@[simp] theorem ofList_cons (c : Combinator) (t : Truth) (l : List Truth) :
    c.ofList (t :: l) = c.of t (c.ofList l) := rfl

/-- The order does not matter. -/
theorem ofList_perm (c : Combinator) {l m : List Truth} (h : l.Perm m) :
    c.ofList l = c.ofList m := by
  induction h with
  | nil => rfl
  | cons t _ ih => rw [ofList_cons, ofList_cons, ih]
  | swap s t l => exact c.of_left_comm t s _
  | trans _ _ ih ih' => exact ih.trans ih'

end Combinator

end BoundSql
