import BoundSql.Proofs.Compilation.Composed
import BoundSql.Proofs.Filter.Yield

/-!
# What compiling filters is composed of

All functions of the compiler are composed of the same few steps: they fail, count an operator,
collect bindings, make a list or go one level deeper, and do so one after the other
(`CompileM.Composed`). The lemmas say so of one function each, for any two counters, and how many
operators it may count: no more than `Filter.operators` tells. What is true of every step that is
composed of these needs no other proof for the compiler.
-/

namespace BoundSql

open CompileM

variable {M N : Type} [Counter M] [Counter N]

theorem composed_emit (target : Target) (test : Test) (operands : List Binding) :
    Composed 0 (target.emit (N := M) test operands) (target.emit (N := N) test operands) :=
  (Composed.addBindings _).bind fun _ => .pure test

/-! ## Operators -/

namespace Operator

variable (target : Target) (op : Operator) (operand : Value)

theorem composed_compileScalar (test : Test) :
    Composed 1 (compileScalar (N := M) target operand test)
      (compileScalar (N := N) target operand test) :=
  (Composed.ofExcept operand.bind).bind fun b => Composed.countOperator.bind fun _ =>
    composed_emit target test [b]

theorem composed_compileNotEqual :
    Composed 1 (compileNotEqual (N := M) target operand)
      (compileNotEqual (N := N) target operand) := by
  unfold compileNotEqual
  cases operand.isNullish with
  | true => exact Composed.countOperator.bind fun _ => composed_emit target .isNotNull []
  | false =>
    exact Composed.countOperator.bind fun _ => (Composed.ofExcept operand.bind).bind fun b =>
      composed_emit target .notEqual [b]

theorem composed_compileList (test : Nat → Test) :
    Composed 1 (compileList (N := M) target op operand test)
      (compileList (N := N) target op operand test) := by
  cases operand with
  | array items =>
    exact (Composed.readList op items).bind fun list => Composed.countOperator.bind fun _ =>
      composed_emit target (test items.length) list.bindings
  | _ => exact (Composed.throw _).mono (Nat.zero_le 1)

theorem composed_compilePattern (test : Test) :
    Composed 1 (compilePattern (N := M) target op operand test)
      (compilePattern (N := N) target op operand test) := by
  cases operand with
  | text pattern =>
    exact Composed.countOperator.bind fun _ => composed_emit target test [.text pattern]
  | _ => exact (Composed.throw _).mono (Nat.zero_le 1)

theorem composed_compile :
    Composed (if op.skips operand then 0 else 1) (op.compile (N := M) target operand)
      (op.compile (N := N) target operand) := by
  cases hs : op.skips operand with
  | true =>
    rw [compile_of_skips hs, compile_of_skips hs]
    exact .pure none
  | false =>
    unfold Operator.compile
    rw [if_neg (not_undefined_of_not_skips hs), if_neg (not_undefined_of_not_skips hs)]
    cases op with
    | greater => exact (composed_compileScalar target operand .greater).map
    | atLeast => exact (composed_compileScalar target operand .atLeast).map
    | less => exact (composed_compileScalar target operand .less).map
    | atMost => exact (composed_compileScalar target operand .atMost).map
    | notEqual => exact (composed_compileNotEqual target operand).map
    | oneOf => exact (composed_compileList target oneOf operand .oneOf).map
    | noneOf => exact (composed_compileList target noneOf operand .noneOf).map
    | like => exact (composed_compilePattern target like operand .like).map
    | likeNoCase => exact (composed_compilePattern target likeNoCase operand .likeNoCase).map
    | regex => exact (composed_compilePattern target regex operand .regex).map
    | present => cases hs

theorem composed_compileAll (ops : List (Operator × Value)) :
    Composed (ops.countP fun p => !p.1.skips p.2) (compileAll (N := M) target ops)
      (compileAll (N := N) target ops) := by
  induction ops with
  | nil => exact .pure []
  | cons p ops ih =>
    obtain ⟨op, operand⟩ := p
    refine ((composed_compile target op operand).bind fun t => ih.bind fun ts =>
      .pure (t.toList ++ ts)).mono ?_
    cases hs : op.skips operand <;> simp [hs, Nat.add_comm]

end Operator

/-! ## Fields -/

namespace Filter

variable (qualifier : Option Identifier) (field : String)

/-- A clause with a single test. -/
theorem composed_test (target : Target) (test : Test) (operands : List Binding) :
    Composed 0
      (do let t ← target.emit (N := M) test operands; pure (Clause.tests target [t]))
      (do let t ← target.emit (N := N) test operands; pure (Clause.tests target [t])) :=
  (composed_emit target test operands).bind fun t => .pure (Clause.tests target [t])

/-- A clause with some tests, if there are any. -/
theorem composed_tests (target : Target) (ts : List Test) :
    Composed 0
      (if ts.isEmpty then throw (.emptyOperators field) else pure (.tests target ts) :
        CompileWith M Clause)
      (if ts.isEmpty then throw (.emptyOperators field) else pure (.tests target ts) :
        CompileWith N Clause) := by
  cases ts with
  | nil => exact .throw (.emptyOperators field)
  | cons t ts => exact .pure (Clause.tests target (t :: ts))

theorem composed_compileOperators (target : Target) (entries : List (String × Value)) :
    Composed (Operator.used (.object entries)) (compileOperators (N := M) field target entries)
      (compileOperators (N := N) field target entries) := by
  unfold compileOperators
  cases hops : Operator.ofEntries entries with
  | error e => exact (Composed.throw e).mono (Nat.zero_le _)
  | ok ops =>
    obtain rfl := Operator.ofEntries_eq_ok_iff.1 hops
    rw [used_entriesOf, ofExcept_ok, ofExcept_ok, pure_bind, pure_bind]
    cases Operator.presence? ops with
    | none =>
      exact (Operator.composed_compileAll target ops).bind fun ts => composed_tests field target ts
    | some operand =>
      cases operand with
      | bool b => exact Composed.countOperator.bind fun _ => composed_test target _ []
      | _ => exact (Composed.throw _).mono (Nat.zero_le 1)

theorem composed_compileField (condition : Value) :
    Composed (Operator.used condition) (compileField (N := M) qualifier field condition)
      (compileField (N := N) qualifier field condition) := by
  have htarget : Composed 0 (ofExcept (Target.ofField qualifier field) : CompileWith M Target)
      (ofExcept (Target.ofField qualifier field) : CompileWith N Target) := .ofExcept _
  cases condition with
  | array l => exact .throw (.arrayField field)
  | object entries =>
    refine (htarget.bind fun target => composed_compileOperators field target entries).mono ?_
    exact Nat.le_of_eq (Nat.zero_add _)
  | null => exact htarget.bind fun target => composed_test target .isNull []
  | undefined => exact htarget.bind fun target => composed_test target .isNull []
  | _ =>
    exact htarget.bind fun target => (Composed.ofExcept _).bind fun b =>
      composed_test target .equal [b]

/-! ## Filters -/

/-- One clause in front of others. -/
theorem composed_cons {n n' : Nat} {m : CompileWith M Clause} {m' : CompileWith N Clause}
    {ms : CompileWith M (List Clause)} {ms' : CompileWith N (List Clause)}
    (h : Composed n m m') (hs : Composed n' ms ms') :
    Composed (n + n') (do let c ← m; let cs ← ms; pure (c :: cs))
      (do let c ← m'; let cs ← ms'; pure (c :: cs)) :=
  h.bind fun c => hs.bind fun cs => .pure (c :: cs)

theorem composed_compileFields (fields : List (String × Value)) :
    Composed (operatorsFields fields) (compileFields (N := M) qualifier fields)
      (compileFields (N := N) qualifier fields) := by
  induction fields with
  | nil => exact .pure []
  | cons p l ih =>
    obtain ⟨field, condition⟩ := p
    exact composed_cons (composed_compileField qualifier field condition) ih

mutual

/-- **What compiling a filter is composed of**, and how many operators it may count. -/
theorem composed_compile (qualifier : Option Identifier) : ∀ f : Filter,
    Composed f.operators (compile (N := M) qualifier f) (compile (N := N) qualifier f)
  | .notObject s => .throw (.notAnObject s)
  | .object conj disj fields blocks => by
    have has := composed_compileCombination qualifier .and conj
    have hos := composed_compileCombination qualifier .or disj
    have hfs := composed_compileFields (M := M) (N := N) qualifier fields
    have hbs := composed_compileBlocks qualifier blocks
    rw [compile, compile, operators]
    exact (has.bind fun as => hos.bind fun os => hfs.bind fun fs => hbs.bind fun bs =>
      .ofExcept (conjunction (as ++ os ++ fs ++ bs))).nested

theorem composed_compileCombination (qualifier : Option Identifier) (c : Combinator) :
    ∀ given : Combination Filter,
      Composed (operatorsCombination given) (compileCombination (N := M) qualifier c given)
        (compileCombination (N := N) qualifier c given)
  | .absent => .pure []
  | .notArray => .throw (.combinatorNotArray c)
  | .items [] => (Composed.throw (.combinatorEmpty c)).mono (Nat.zero_le _)
  | .items (f :: l) => by
    have hl := composed_compileItems qualifier (f :: l)
    refine (Composed.countOperator.bind fun _ => hl.bind fun cs =>
      .pure [Clause.combined c cs]).mono ?_
    exact Nat.le_of_eq (Nat.add_comm _ _)

theorem composed_compileItems (qualifier : Option Identifier) : ∀ l : List Filter,
    Composed (operatorsItems l) (compileItems (N := M) qualifier l)
      (compileItems (N := N) qualifier l)
  | [] => .pure []
  | f :: l => by
    have hf := composed_compile qualifier f
    have hl := composed_compileItems qualifier l
    exact composed_cons hf hl

theorem composed_compileBlocks (qualifier : Option Identifier) : ∀ l : List (String × Filter),
    Composed (operatorsBlocks l) (compileBlocks (N := M) qualifier l)
      (compileBlocks (N := N) qualifier l)
  | [] => .pure []
  | (name, f) :: l => by
    have hf := fun inner => composed_compile (some inner) f
    have hl := composed_compileBlocks qualifier l
    refine ((Composed.ofExcept (blockAlias qualifier name)).bind fun inner =>
      composed_cons (hf inner) hl).mono ?_
    exact Nat.le_of_eq (Nat.zero_add _)

end

end Filter

end BoundSql
