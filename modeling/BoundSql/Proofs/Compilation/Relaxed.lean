import BoundSql.Compilation.Basic
import BoundSql.Fragment.Basic

/-!
# Compilations under relaxed limits

A compilation looks at its limits only to stop. So what it does under some limits, it also does
under limits that are relaxed, except that it may go on where a limit had stopped it. `KeptResult`
relates a result to one under relaxed limits, and `CompileM.Kept` a step to one that does the same
from the same place; the lemmas follow the ways in which steps are put together.

The two compilations are at the same place all the time: they have counted the same levels and
operators and collected the same bindings (`Compilation.RelaxedTo`). Once a limit stops the first of
them, nothing more is said of the second.
-/

namespace BoundSql

/-- Whether an error says that a limit on filters is reached. -/
def Error.isLimit : Error → Bool
  | tooDeep _ | tooManyOperators _ | listTooLong _ _ _ => true
  | _ => false

/-- Limits on filters are relaxed to others when none of them is lowered. The longest query is no
limit on filters. -/
structure Limits.RelaxedTo (l l' : Limits) : Prop where
  nestingDepth_le : l.nestingDepth ≤ l'.nestingDepth
  operators_le : l.operators ≤ l'.operators
  listItems_le : l.listItems ≤ l'.listItems

/-- Any two limits can be relaxed to the same. -/
theorem Limits.exists_relaxed (l l' : Limits) : ∃ m, l.RelaxedTo m ∧ l'.RelaxedTo m :=
  ⟨{ nestingDepth := max l.nestingDepth l'.nestingDepth
     operators := max l.operators l'.operators
     listItems := max l.listItems l'.listItems },
    ⟨Nat.le_max_left .., Nat.le_max_left .., Nat.le_max_left ..⟩,
    ⟨Nat.le_max_right .., Nat.le_max_right .., Nat.le_max_right ..⟩⟩

/-- A result and one under relaxed limits: they are the same, unless a limit had stopped the
first. -/
inductive KeptResult {α : Type} : Except Error α → Except Error α → Prop
  | same (x : Except Error α) : KeptResult x x
  | stopped {e : Error} (h : e.isLimit = true) (x : Except Error α) :
      KeptResult (.error e) x

/-- A longer list may be allowed, but a list that was allowed is the same. -/
theorem Fragment.kept_ofList (op : Operator) (items : List Value) {max max' : Nat}
    (h : max ≤ max') : KeptResult (ofList op items max) (ofList op items max') := by
  unfold ofList
  split
  · exact .same _
  · by_cases hlong : max < items.length
    · rw [if_pos hlong]
      exact .stopped rfl _
    · have hlong' : ¬ max' < items.length := by omega
      rw [if_neg hlong, if_neg hlong']
      exact .same _

theorem Fragment.ofList_of_le {op : Operator} {items : List Value} {max max' : Nat} {f : Fragment}
    (h : ofList op items max = .ok f) (hmax : max ≤ max') : ofList op items max' = .ok f := by
  have hkept := kept_ofList op items hmax
  rw [h] at hkept
  generalize ofList op items max' = x at hkept ⊢
  cases hkept
  rfl

namespace Compilation

/-- A compilation and one at the same place under relaxed limits. -/
structure RelaxedTo (c c' : Compilation) : Prop where
  limits : c.limits.RelaxedTo c'.limits
  depth_eq : c'.depth = c.depth
  operators_eq : c'.operators = c.operators
  bindings_eq : c'.bindings = c.bindings

variable {c c' : Compilation}

theorem RelaxedTo.leave (h : c.RelaxedTo c') : c.leave.RelaxedTo c'.leave :=
  ⟨h.limits, congrArg (· - 1) h.depth_eq, h.operators_eq, h.bindings_eq⟩

theorem RelaxedTo.after (h : c.RelaxedTo c') (n : Nat) (bs : List Binding) :
    (c.after n bs).RelaxedTo (c'.after n bs) :=
  ⟨h.limits, h.depth_eq, congrArg (· + n) h.operators_eq, congrArg (· ++ bs) h.bindings_eq⟩

/-- Under relaxed limits a compilation may go deeper wherever it could before. -/
theorem RelaxedTo.depth_lt (h : c.RelaxedTo c') (hdepth : c.depth < c.limits.nestingDepth) :
    c'.depth < c'.limits.nestingDepth :=
  h.depth_eq ▸ Nat.lt_of_lt_of_le hdepth h.limits.nestingDepth_le

end Compilation

namespace CompileM

open Compilation

variable {α β : Type}

/-- A run and one under relaxed limits: they end in the same way and at the same place, unless a
limit had stopped the first. -/
inductive KeptRun :
    EStateM.Result Error Compilation α → EStateM.Result Error Compilation α → Prop
  | ok {c c' : Compilation} (a : α) : c.RelaxedTo c' → KeptRun (.ok a c) (.ok a c')
  | error (e : Error) (c c' : Compilation) : KeptRun (.error e c) (.error e c')
  | stopped {e : Error} (h : e.isLimit = true) (c : Compilation)
      (r : EStateM.Result Error Compilation α) : KeptRun (.error e c) r

/-- A step and one that does the same under relaxed limits. -/
def Kept (m m' : CompileM α) : Prop :=
  ∀ c c' : Compilation, c.RelaxedTo c' → KeptRun (m c) (m' c')

namespace Kept

variable {m m' : CompileM α}

/-! ## Single steps -/

theorem pure (a : α) : Kept (pure a) (pure a) :=
  fun _ _ hc => .ok a hc

theorem throw (e : Error) : Kept (throw e : CompileM α) (throw e) :=
  fun c c' _ => .error e c c'

theorem ofExcept {x x' : Except Error α} (h : KeptResult x x') :
    Kept (ofExcept x) (ofExcept x') := by
  cases h with
  | same =>
    cases x with
    | ok a => exact .pure a
    | error e => exact .throw e
  | stopped he => exact fun c c' _ => .stopped he c _

/-- One more operator may be one too many only before the limits are relaxed. -/
theorem countOperator : Kept countOperator countOperator := by
  intro c c' hc
  have hle := hc.limits.operators_le
  rw [countOperator_run, countOperator_run, hc.operators_eq]
  split
  · exact .stopped rfl _ _
  · next hcount =>
    rw [if_neg fun hcount' => hcount (Nat.lt_of_le_of_lt hle hcount')]
    exact .ok () (hc.after 1 [])

theorem addBindings (bs : List Binding) : Kept (addBindings bs) (addBindings bs) := by
  intro c c' hc
  rw [addBindings_run, addBindings_run]
  exact .ok () (hc.after 0 bs)

/-! ## Steps put together -/

theorem bind {g g' : α → CompileM β} (h : Kept m m') (hg : ∀ a, Kept (g a) (g' a)) :
    Kept (m >>= g) (m' >>= g') := by
  intro c c' hc
  have hm := h c c' hc
  generalize hrun : m c = r at hm
  generalize hrun' : m' c' = r' at hm
  cases hm with
  | ok a hc =>
    rw [bind_run_ok hrun, bind_run_ok hrun']
    exact hg a _ _ hc
  | error e c c' =>
    rw [bind_run_error hrun, bind_run_error hrun']
    exact .error e c c'
  | stopped he c =>
    rw [bind_run_error hrun]
    exact .stopped he c _

/-- Steps that look at the limits. -/
theorem read {g : Compilation → CompileM α}
    (h : ∀ c c' : Compilation, c.RelaxedTo c' → Kept (g c) (g c')) :
    Kept (get >>= g) (get >>= g) :=
  fun c c' hc => h c c' hc c c' hc

theorem nested (h : Kept m m') : Kept (nested m) (nested m') := by
  intro c c' hc
  rcases Nat.lt_or_ge c.depth c.limits.nestingDepth with hdepth | hdepth
  · have hdepth' := hc.depth_lt hdepth
    have hm := h { c with depth := c.depth + 1 } { c' with depth := c'.depth + 1 }
      ⟨hc.limits, congrArg (· + 1) hc.depth_eq, hc.operators_eq, hc.bindings_eq⟩
    generalize hrun : m _ = r at hm
    generalize hrun' : m' _ = r' at hm
    cases hm with
    | ok a hc =>
      rw [nested_run_ok hdepth hrun, nested_run_ok hdepth' hrun']
      exact .ok a hc.leave
    | error e c c' =>
      rw [nested_run_error hdepth hrun, nested_run_error hdepth' hrun']
      exact .error e c.leave c'.leave
    | stopped he c =>
      rw [nested_run_error hdepth hrun]
      exact .stopped he c.leave _
  · rw [nested_run_of_le hdepth]
    exact .stopped rfl c _

end Kept

end CompileM

end BoundSql
