import BoundSql.Clause
import BoundSql.Compilation.Basic
import BoundSql.Filter.Basic

/-!
# Compiling filters

`Filter.compile` turns a filter into a clause and collects its bindings. Within a filter object
the clauses come in this order: what `"and"` asks for, what `"or"` asks for, the fields, and the
alias blocks. `compile` is the whole way from a document to a fragment.

Whatever is collected, is collected in the order in which the placeholders stand in the text: the
path of a target first, then the operands of its test.
-/

namespace BoundSql

open CompileM

variable {N : Type}

/-- Collect the bindings of a test: those of its target, then its operands. -/
def Target.emit (target : Target) (test : Test) (operands : List Binding) : CompileWith N Test := do
  addBindings (target.bindings ++ operands)
  pure test

variable [Counter N]

namespace Operator

/-- The test of a comparison with one operand that must be a scalar. -/
def compileScalar (target : Target) (operand : Value) (test : Test) : CompileWith N Test := do
  let b ← ofExcept operand.bind
  countOperator
  target.emit test [b]

/-- The test that a target differs from an operand, or is not null when the operand is. -/
def compileNotEqual (target : Target) (operand : Value) : CompileWith N Test := do
  countOperator
  if operand.isNullish then target.emit .isNotNull []
  else do
    let b ← ofExcept operand.bind
    target.emit .notEqual [b]

/-- The test of a target against a list of items. -/
def compileList (target : Target) (op : Operator) (operand : Value) (test : Nat → Test) :
    CompileWith N Test := do
  match operand with
  | .array items =>
    let max := (← get).limits.listItems
    let list ← ofExcept (Fragment.ofList op items max)
    countOperator
    target.emit (test items.length) list.bindings
  | _ => throw (.operandShape op .array)

/-- The test of a target against a pattern. -/
def compilePattern (target : Target) (op : Operator) (operand : Value) (test : Test) :
    CompileWith N Test := do
  match operand with
  | .text pattern =>
    countOperator
    target.emit test [.text pattern]
  | _ => throw (.operandShape op .string)

/-- The test that an operator asks for, or none when its operand is undefined. To differ from what
is undefined is to differ from null. Whether a field is present is not asked here. -/
def compile (target : Target) (op : Operator) (operand : Value) : CompileWith N (Option Test) :=
  if operand.isUndefined ∧ op ≠ notEqual then pure none
  else
    match op with
    | greater => some <$> compileScalar target operand .greater
    | atLeast => some <$> compileScalar target operand .atLeast
    | less => some <$> compileScalar target operand .less
    | atMost => some <$> compileScalar target operand .atMost
    | notEqual => some <$> compileNotEqual target operand
    | oneOf => some <$> compileList target op operand .oneOf
    | noneOf => some <$> compileList target op operand .noneOf
    | like => some <$> compilePattern target op operand .like
    | likeNoCase => some <$> compilePattern target op operand .likeNoCase
    | regex => some <$> compilePattern target op operand .regex
    | present => pure none

/-- The tests that some operators ask for, in order. -/
def compileAll (target : Target) : List (Operator × Value) → CompileWith N (List Test)
  | [] => pure []
  | (op, operand) :: l => do
    let t ← op.compile target operand
    let ts ← compileAll target l
    pure (t.toList ++ ts)

/-- The operators of an operator object, or the refusal of the first key that names none. -/
def ofEntries : List (String × Value) → Except Error (List (Operator × Value))
  | [] => .ok []
  | (key, operand) :: l => do
    match ofName? key with
    | none => .error (.unknownOperator key)
    | some op =>
      let ops ← ofEntries l
      pure ((op, operand) :: ops)

/-- What the first of some operators that asks whether a field is present was given. -/
def presence? (ops : List (Operator × Value)) : Option Value :=
  (ops.find? fun p => p.1 = present && !p.2.isUndefined).map Prod.snd

end Operator

namespace Filter

/-- The clause of an operator object. All its keys are checked first. If it asks whether the field
is present, that is all it asks. -/
def compileOperators (field : String) (target : Target) (entries : List (String × Value)) :
    CompileWith N Clause := do
  let ops ← ofExcept (Operator.ofEntries entries)
  match Operator.presence? ops with
  | some (.bool b) =>
    countOperator
    let t ← target.emit (if b then .isNotNull else .isNull) []
    pure (.tests target [t])
  | some _ => throw (.operandShape .present .boolean)
  | none =>
    let ts ← Operator.compileAll target ops
    if ts.isEmpty then throw (.emptyOperators field)
    else pure (.tests target ts)

/-- The clause of a field and its condition. -/
def compileField (qualifier : Option Identifier) (field : String) (condition : Value) :
    CompileWith N Clause :=
  match condition with
  | .array _ => throw (.arrayField field)
  | .object entries => do
    let target ← ofExcept (Target.ofField qualifier field)
    compileOperators field target entries
  | .null | .undefined => do
    let target ← ofExcept (Target.ofField qualifier field)
    let t ← target.emit .isNull []
    pure (.tests target [t])
  | v => do
    let target ← ofExcept (Target.ofField qualifier field)
    let b ← ofExcept v.bind
    let t ← target.emit .equal [b]
    pure (.tests target [t])

/-- The clauses of some fields, in order. -/
def compileFields (qualifier : Option Identifier) :
    List (String × Value) → CompileWith N (List Clause)
  | [] => pure []
  | (field, condition) :: l => do
    let c ← compileField qualifier field condition
    let cs ← compileFields qualifier l
    pure (c :: cs)

/-- One clause for the clauses of a filter object: a single clause stands for itself, and more
are to hold together. -/
def conjunction : List Clause → Except Error Clause
  | [] => .error .emptyFilter
  | [c] => .ok c
  | cs => .ok (.combined .and cs)

/-- The alias of a block, which must not stand inside the block of another. -/
def blockAlias (outer : Option Identifier) (name : String) : Except Error Identifier :=
  match outer with
  | some o => .error (.nestedAlias o.name name)
  | none => Identifier.ofName name

mutual

/-- The clause of a filter, inside the block of an alias if there is one. -/
def compile (qualifier : Option Identifier) : Filter → CompileWith N Clause
  | .notObject s => throw (.notAnObject s)
  | .object conj disj fields blocks =>
    nested do
      let as ← compileCombination qualifier .and conj
      let os ← compileCombination qualifier .or disj
      let fs ← compileFields qualifier fields
      let bs ← compileBlocks qualifier blocks
      ofExcept (conjunction (as ++ os ++ fs ++ bs))

/-- The clause of what a combinator was given, if it was given anything. -/
def compileCombination (qualifier : Option Identifier) (c : Combinator) :
    Combination Filter → CompileWith N (List Clause)
  | .absent => pure []
  | .notArray => throw (.combinatorNotArray c)
  | .items items => do
    if items.isEmpty then throw (.combinatorEmpty c)
    countOperator
    let cs ← compileItems qualifier items
    pure [.combined c cs]

/-- The clauses of some filters, in order. -/
def compileItems (qualifier : Option Identifier) : List Filter → CompileWith N (List Clause)
  | [] => pure []
  | f :: l => do
    let c ← compile qualifier f
    let cs ← compileItems qualifier l
    pure (c :: cs)

/-- The clauses of some alias blocks, in order. -/
def compileBlocks (qualifier : Option Identifier) :
    List (String × Filter) → CompileWith N (List Clause)
  | [] => pure []
  | (name, f) :: l => do
    let inner ← ofExcept (blockAlias qualifier name)
    let c ← compile (some inner) f
    let cs ← compileBlocks qualifier l
    pure (c :: cs)

end

end Filter

/-- The fragment of a filter document under some limits: the text of its clause between one more
pair of parentheses, and a binding for each placeholder. -/
def compile (limits : Limits) (v : Value) : Except Error Fragment :=
  match (Filter.ofValue v).compile none ({ limits } : Compilation) with
  | .ok clause c => .ok { text := "(" ++ clause.text ++ ")", bindings := c.bindings }
  | .error e _ => .error e

end BoundSql
