import BoundSql.Compilation.Basic

/-!
# Scripts of compilation steps

A `Step` is a step of a compilation as data, and a script is a list of steps. A block is a step
that holds steps of its own: it runs them one level deeper and ends with the first that fails. At
the top of a script the steps run one after the other whether they fail or not.

`Step.performAll` runs a script and tells what happened: an `Event` for the beginning of each block
and one for the end of each step.
-/

namespace BoundSql

/-- A step of a compilation. -/
inductive Step
  /-- Account for so many operators, one at a time, until one is too many. -/
  | count (times : Nat)
  /-- Collect a binding. -/
  | binding (b : Binding)
  /-- Collect some bindings. -/
  | bindings (bs : List Binding)
  /-- Take steps one level deeper. -/
  | nested (steps : List Step)
  deriving Repr

/-- The kinds of step, for telling what ended. -/
inductive StepKind
  | count
  | binding
  | bindings
  | nested
  deriving DecidableEq, Repr

/-- How a step ended. -/
inductive Outcome
  | done
  /-- A binding was collected, and this placeholder stands for it. -/
  | placeholder (text : String)
  | failed (e : Error)
  deriving DecidableEq, Repr

/-- What happens while a script runs. -/
inductive Event
  /-- The steps of a block begin at a depth. -/
  | entered (depth : Nat)
  /-- A step has ended, at a depth and with so many operators met. -/
  | ended (kind : StepKind) (outcome : Outcome) (depth operators : Nat)
  deriving DecidableEq, Repr

namespace Step

/-- The kind of a step. -/
def kind : Step → StepKind
  | count _ => .count
  | binding _ => .binding
  | bindings _ => .bindings
  | nested _ => .nested

/-- Account for `times` operators, until one is too many. -/
def countTimes : Nat → CompileM Unit
  | 0 => pure ()
  | times + 1 => do
    CompileM.countOperator
    countTimes times

/-- The outcome of a step that came to an end, and the state in which it did. -/
def outcome {α : Type} (ok : α → Outcome) :
    EStateM.Result Error Compilation α → Outcome × Compilation
  | .ok a c => (ok a, c)
  | .error e c => (.failed e, c)

mutual

/-- Take a step, and tell what happened inside it, how it ended and where that leaves the
compilation. -/
def perform (c : Compilation) : Step → List Event × Outcome × Compilation
  | count times => ([], outcome (fun _ => .done) (countTimes times c))
  | binding b => ([], outcome .placeholder (CompileM.addBinding b c))
  | bindings bs => ([], outcome (fun _ => .done) (CompileM.addBindings bs c))
  | nested steps =>
    match c.enter with
    | .error e => ([], .failed e, c)
    | .ok inner =>
      let (events, result, c') := performBlock inner steps
      (.entered inner.depth :: events, result, c'.leave)

/-- Take the steps of a block until one fails, and tell what happened. -/
def performBlock (c : Compilation) : List Step → List Event × Outcome × Compilation
  | [] => ([], .done, c)
  | s :: l =>
    let (events, result, c') := perform c s
    let told := events ++ [.ended s.kind result c'.depth c'.operators]
    match result with
    | .failed e => (told, .failed e, c')
    | _ =>
      let (rest, blockResult, c'') := performBlock c' l
      (told ++ rest, blockResult, c'')

end

/-- Take all steps of a script, also after one that fails, and tell what happened. -/
def performAll (c : Compilation) : List Step → List Event × Compilation
  | [] => ([], c)
  | s :: l =>
    let (events, result, c') := perform c s
    let (rest, c'') := performAll c' l
    (events ++ .ended s.kind result c'.depth c'.operators :: rest, c'')

/-! ## What single steps do -/

section Steps

variable {c : Compilation}

@[simp] theorem perform_binding (c : Compilation) (b : Binding) :
    perform c (.binding b) = ([], .placeholder "?", c.after 0 [b]) := rfl

@[simp] theorem perform_bindings (c : Compilation) (bs : List Binding) :
    perform c (.bindings bs) = ([], .done, c.after 0 bs) := rfl

@[simp] theorem perform_count_zero (c : Compilation) : perform c (.count 0) = ([], .done, c) := rfl

/-- Each operator is counted, whether it is one too many or not; if it is, no other is. -/
theorem perform_count_succ (c : Compilation) (times : Nat) :
    perform c (.count (times + 1)) =
      if c.limits.operators < c.operators + 1 then
        ([], .failed (.tooManyOperators c.limits.operators), c.after 1 [])
      else perform (c.after 1 []) (.count times) := by
  have hone := CompileM.countOperator_run c
  rw [Counter.toNat_nat, Counter.add_nat] at hone
  rw [perform, countTimes]
  split
  · next h =>
    rw [if_pos h] at hone
    rw [CompileM.bind_run_error hone, outcome]
  · next h =>
    rw [if_neg h] at hone
    rw [CompileM.bind_run_ok hone, perform]

/-- At the greatest depth a block is refused, and nothing in it is taken. -/
theorem perform_nested_of_le (h : c.limits.nestingDepth ≤ c.depth) (steps : List Step) :
    perform c (.nested steps) = ([], .failed (.tooDeep c.limits.nestingDepth), c) := by
  rw [perform, Compilation.enter_of_le h]

/-- Elsewhere a block is entered, one level deeper, and left again however it ends. -/
theorem perform_nested_of_lt (h : c.depth < c.limits.nestingDepth) (steps : List Step) :
    perform c (.nested steps) =
      (.entered (c.depth + 1) :: (performBlock { c with depth := c.depth + 1 } steps).1,
        (performBlock { c with depth := c.depth + 1 } steps).2.1,
        (performBlock { c with depth := c.depth + 1 } steps).2.2.leave) := by
  rw [perform, Compilation.enter_of_lt h]

end Steps

end Step

end BoundSql
