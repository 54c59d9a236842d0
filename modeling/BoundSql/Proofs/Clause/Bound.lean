import BoundSql.Clause

/-!
# Clauses with their operands in place

A clause keeps its operands apart from its text. A `BoundClause` puts them back: each test stands
beside the operands that it compares with. What cannot be written as SQL cannot be built: a test
has the operands that it takes, and there is no empty conjunction.

* `BoundClause.clause` forgets the operands.
* `BoundClause.bindings` lists them, in the order of the placeholders in the text of the clause.
-/

namespace BoundSql

/-- Whether a test takes a list of operands. A test against a list takes at least one. -/
def Test.Takes : Test → List Binding → Prop
  | .oneOf n, bs => bs.length = n ∧ bs ≠ []
  | .noneOf n, bs => bs.length = n ∧ bs ≠ []
  | t, bs => bs.length = t.arity

theorem Test.Takes.length_eq {t : Test} {bs : List Binding} (h : t.Takes bs) :
    bs.length = t.arity := by
  cases t with
  | oneOf n => exact h.1
  | noneOf n => exact h.1
  | _ => exact h

/-- A test and its operands. -/
structure BoundTest where
  test : Test
  operands : List Binding
  takes : test.Takes operands

/-- A clause and its operands. -/
inductive BoundClause
  /-- Some tests of one target, all of which are to hold. -/
  | tests (target : Target) (first : BoundTest) (rest : List BoundTest)
  /-- Clauses of which all or some are to hold. -/
  | combined (c : Combinator) (first : BoundClause) (rest : List BoundClause)

namespace BoundClause

/-- What holds of the tests of each target, and of clauses put together when it holds of each of
them, holds of every clause. -/
@[elab_as_elim]
theorem ind {motive : BoundClause → Prop}
    (tests : ∀ target first rest, motive (.tests target first rest))
    (combined : ∀ c first rest, (∀ b ∈ first :: rest, motive b) → motive (.combined c first rest)) :
    ∀ b, motive b := by
  intro b
  induction hsize : sizeOf b using Nat.strongRecOn generalizing b with
  | ind n ih =>
    cases b with
    | tests target first rest => exact tests target first rest
    | combined c first rest =>
      refine combined c first rest fun b hb => ih _ ?_ b rfl
      have hlt := List.sizeOf_lt_of_mem hb
      rw [BoundClause.combined.sizeOf_spec] at hsize
      rw [List.cons.sizeOf_spec] at hlt
      omega

mutual

/-- The clause without its operands. -/
def clause : BoundClause → Clause
  | tests target t ts => .tests target (t.test :: ts.map BoundTest.test)
  | combined c b bs => .combined c (b.clause :: clauses bs)

/-- Clauses without their operands. -/
def clauses : List BoundClause → List Clause
  | [] => []
  | b :: bs => b.clause :: clauses bs

end

mutual

/-- The operands of a clause and the paths of its targets, in the order of the placeholders. -/
def bindings : BoundClause → List Binding
  | tests target t ts => (t :: ts).flatMap fun t => target.bindings ++ t.operands
  | combined _ b bs => b.bindings ++ allBindings bs

/-- The bindings of some clauses, in order. -/
def allBindings : List BoundClause → List Binding
  | [] => []
  | b :: bs => b.bindings ++ allBindings bs

end

/-- One clause for the clauses of a filter object: a single clause stands for itself, and more
are to hold together. -/
def conjunction : List BoundClause → Option BoundClause
  | [] => none
  | [b] => some b
  | b :: b' :: bs => some (.combined .and b (b' :: bs))

theorem clauses_eq_map (l : List BoundClause) : clauses l = l.map clause := by
  induction l with
  | nil => rfl
  | cons b l ih => rw [clauses, ih, List.map_cons]

theorem allBindings_eq_flatMap (bs : List BoundClause) : allBindings bs = bs.flatMap bindings := by
  induction bs with
  | nil => rfl
  | cons b bs ih => rw [allBindings, ih, List.flatMap_cons]

theorem texts_clauses (bs : List BoundClause) :
    Clause.texts (clauses bs) = bs.map fun b => b.clause.text := by
  induction bs with
  | nil => rfl
  | cons b bs ih => rw [clauses, Clause.texts, ih, List.map_cons]

@[simp] theorem clauses_append (l m : List BoundClause) :
    clauses (l ++ m) = clauses l ++ clauses m := by
  simp only [clauses_eq_map, List.map_append]

@[simp] theorem allBindings_append (l m : List BoundClause) :
    allBindings (l ++ m) = allBindings l ++ allBindings m := by
  simp only [allBindings_eq_flatMap, List.flatMap_append]

/-- Taking clauses together keeps their bindings, in order. -/
theorem bindings_conjunction {l : List BoundClause} {b : BoundClause}
    (h : conjunction l = some b) : b.bindings = allBindings l := by
  match l, h with
  | [b], h =>
    cases h
    simp only [allBindings, List.append_nil]
  | b :: b' :: bs, h =>
    cases h
    rfl

end BoundClause

end BoundSql
