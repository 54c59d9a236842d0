import BoundSql.Filter.Compile
import BoundSql.Proofs.Clause.Bound
import BoundSql.Proofs.Compilation.Yield
import Mathlib.Data.List.Forall2

/-!
# What a filter asks for

`Filter.bound` is the clause that a filter asks for, with its operands in place. It does not know
of depths and numbers of operators: these are the measures `Filter.depth` and `Filter.operators`.
The compiler is put together from the three (`Filter.yields_compile`, `compile_eq_ok_iff`): it
succeeds exactly when there is such a clause and both measures are within the limits, and then
gives the clause and collects its bindings.
-/

namespace BoundSql

open CompileM

theorem toOption_eq_some_iff {α : Type} {x : Except Error α} {a : α} :
    x.toOption = some a ↔ x = .ok a := by
  cases x <;> simp [Except.toOption]

theorem map_eq_ok_iff {ε α β : Type} {f : α → β} {x : Except ε α} {b : β} :
    x.map f = .ok b ↔ ∃ a, x = .ok a ∧ f a = b := by
  cases x <;> simp [Except.map]

theorem map_eq_error_iff {ε α β : Type} {f : α → β} {x : Except ε α} {e : ε} :
    x.map f = .error e ↔ x = .error e := by
  cases x <;> simp [Except.map]

theorem exists_of_mem_of_forall₂ {α β : Type} {R : α → β → Prop} {l : List α} {m : List β} {a : α}
    (h : List.Forall₂ R l m) (ha : a ∈ l) : ∃ b ∈ m, R a b := by
  induction h with
  | nil => cases ha
  | @cons a' b' l m hab _ ih =>
    rcases List.mem_cons.1 ha with rfl | ha
    · exact ⟨b', List.mem_cons_self, hab⟩
    · obtain ⟨b, hb, hR⟩ := ih ha
      exact ⟨b, List.mem_cons_of_mem _ hb, hR⟩

/-- The bindings of a list of values are the bindings of its members. -/
theorem Value.bindAll_eq_ok_iff {l : List Value} {bs : List Binding} :
    Value.bindAll l = .ok bs ↔ List.Forall₂ (fun v b => v.bind = .ok b) l bs := by
  induction l generalizing bs with
  | nil => rw [Value.bindAll, List.forall₂_nil_left_iff, Except.ok.injEq, eq_comm]
  | cons v l ih =>
    simp only [List.forall₂_cons_left_iff, ← ih, Value.bindAll]
    cases v.bind with
    | error e => simp [Bind.bind, Except.bind]
    | ok b => cases Value.bindAll l <;> simp [Bind.bind, Except.bind, pure, Except.pure, eq_comm]

/-! ## The tests of operators -/

namespace BoundTest

/-- A test that takes a single operand, with this operand. -/
def one (t : Test) (h : ∀ b, t.Takes [b]) (b : Binding) : BoundTest :=
  ⟨t, [b], h b⟩

end BoundTest

namespace Operator

/-- Whether an operator asks nothing of an operand. Only a difference can be asked of what is
undefined; whether a field is present is asked of the whole operator object. -/
def skips (op : Operator) (operand : Value) : Bool :=
  op = present || (operand.isUndefined && op ≠ notEqual)

/-- An operator that asks nothing is compiled to nothing. -/
theorem compile_of_skips {N : Type} [Counter N] {op : Operator} {operand : Value}
    (h : op.skips operand = true) (target : Target) :
    op.compile (N := N) target operand = pure none := by
  unfold Operator.compile
  cases op <;> simp_all [skips]

theorem not_undefined_of_not_skips {op : Operator} {operand : Value}
    (h : op.skips operand = false) : ¬ (operand.isUndefined = true ∧ op ≠ notEqual) := by
  rintro ⟨hu, hne⟩
  simp [skips, hu, hne] at h

/-- The test against a list of operands, if they are not too many. -/
def askList (items : Nat) (test : Nat → Test)
    (takes : ∀ b bs, (test (List.length (b :: bs))).Takes (b :: bs)) : Value → Option BoundTest
  | .array l =>
    if items < l.length then none
    else
      match (Value.bindAll l).toOption with
      | some (b :: bs) => some ⟨test (b :: bs).length, b :: bs, takes b bs⟩
      | _ => none
  | _ => none

/-- The test against a pattern. -/
def askPattern (test : Test) (takes : ∀ b, test.Takes [b]) : Value → Option BoundTest
  | .text pattern => some (.one test takes (.text pattern))
  | _ => none

/-- The test that an operator asks for, if the operand suits it. -/
def ask (items : Nat) (op : Operator) (operand : Value) : Option BoundTest :=
  match op with
  | greater => operand.bind.toOption.map (.one .greater fun _ => rfl)
  | atLeast => operand.bind.toOption.map (.one .atLeast fun _ => rfl)
  | less => operand.bind.toOption.map (.one .less fun _ => rfl)
  | atMost => operand.bind.toOption.map (.one .atMost fun _ => rfl)
  | notEqual =>
    if operand.isNullish then some ⟨.isNotNull, [], rfl⟩
    else operand.bind.toOption.map (.one .notEqual fun _ => rfl)
  | oneOf => askList items .oneOf (fun _ _ => ⟨rfl, nofun⟩) operand
  | noneOf => askList items .noneOf (fun _ _ => ⟨rfl, nofun⟩) operand
  | like => askPattern .like (fun _ => rfl) operand
  | likeNoCase => askPattern .likeNoCase (fun _ => rfl) operand
  | regex => askPattern .regex (fun _ => rfl) operand
  | present => none

/-- The tests that some operators ask for, in order. -/
def askAll (items : Nat) : List (Operator × Value) → Option (List BoundTest)
  | [] => some []
  | (op, operand) :: l =>
    if op.skips operand then askAll items l
    else (op.ask items operand).bind fun t => (askAll items l).map (t :: ·)

/-- The test for whether a field is present. -/
def presenceTest (b : Bool) : BoundTest :=
  if b then ⟨.isNotNull, [], rfl⟩ else ⟨.isNull, [], rfl⟩

end Operator

/-! ## The clauses of filters -/

namespace Filter

/-- The clause of an operator object. -/
def boundOperators (items : Nat) (target : Target) (entries : List (String × Value)) :
    Option BoundClause := do
  let ops ← (Operator.ofEntries entries).toOption
  match Operator.presence? ops with
  | some (.bool b) => some (.tests target (Operator.presenceTest b) [])
  | some _ => none
  | none =>
    match ← Operator.askAll items ops with
    | [] => none
    | t :: ts => some (.tests target t ts)

/-- The clause of a field and its condition. -/
def boundField (items : Nat) (qualifier : Option Identifier) (field : String)
    (condition : Value) : Option BoundClause := do
  let target ← (Target.ofField qualifier field).toOption
  match condition with
  | .array _ => none
  | .object entries => boundOperators items target entries
  | .null | .undefined => some (.tests target ⟨.isNull, [], rfl⟩ [])
  | v => v.bind.toOption.map fun b => .tests target (.one .equal (fun _ => rfl) b) []

/-- The clauses of some fields, in order. -/
def boundFields (items : Nat) (qualifier : Option Identifier) :
    List (String × Value) → Option (List BoundClause)
  | [] => some []
  | (field, condition) :: l => do
    let b ← boundField items qualifier field condition
    let bs ← boundFields items qualifier l
    some (b :: bs)

mutual

/-- The clause that a filter asks for, inside the block of an alias if there is one. -/
def bound (items : Nat) (qualifier : Option Identifier) : Filter → Option BoundClause
  | .notObject _ => none
  | .object conj disj fields blocks => do
    let as ← boundCombination items qualifier .and conj
    let os ← boundCombination items qualifier .or disj
    let fs ← boundFields items qualifier fields
    let bs ← boundBlocks items qualifier blocks
    BoundClause.conjunction (as ++ os ++ fs ++ bs)

/-- The clause of what a combinator was given, if it was given anything. -/
def boundCombination (items : Nat) (qualifier : Option Identifier) (c : Combinator) :
    Combination Filter → Option (List BoundClause)
  | .absent => some []
  | .notArray => none
  | .items l => do
    match ← boundItems items qualifier l with
    | [] => none
    | b :: bs => some [.combined c b bs]

/-- The clauses of some filters, in order. -/
def boundItems (items : Nat) (qualifier : Option Identifier) :
    List Filter → Option (List BoundClause)
  | [] => some []
  | f :: l => do
    let b ← bound items qualifier f
    let bs ← boundItems items qualifier l
    some (b :: bs)

/-- The clauses of some alias blocks, in order. -/
def boundBlocks (items : Nat) (qualifier : Option Identifier) :
    List (String × Filter) → Option (List BoundClause)
  | [] => some []
  | (name, f) :: l => do
    let inner ← (blockAlias qualifier name).toOption
    let b ← bound items (some inner) f
    let bs ← boundBlocks items qualifier l
    some (b :: bs)

end

end Filter

end BoundSql
