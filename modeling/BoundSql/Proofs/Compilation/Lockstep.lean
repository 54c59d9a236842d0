import BoundSql.Compilation.Basic

/-!
# Compilations in step

Two compilations are abreast when they have counted the same levels and operators and collected
equally many bindings. Which bindings they have collected may differ. Two steps go in lockstep when
they take compilations that are abreast to compilations that are abreast, and both succeed or both
fail with the same error.

* `SameOutcome`: both succeed, with results that are related, or both fail with the same error.
* `CompileM.Lockstep`: the relation on steps, with a lemma for each way of putting steps together.
-/

namespace BoundSql

/-- Two ways of getting a result that both succeed, with results that are related, or both fail
with the same error. -/
inductive SameOutcome {α β : Type} (R : α → β → Prop) : Except Error α → Except Error β → Prop
  | ok {a : α} {b : β} : R a b → SameOutcome R (.ok a) (.ok b)
  | error (e : Error) : SameOutcome R (.error e) (.error e)

namespace SameOutcome

variable {α β α' β' : Type} {R : α → β → Prop} {S : α' → β' → Prop}

theorem refl {R : α → α → Prop} (h : ∀ a, R a a) (x : Except Error α) : SameOutcome R x x := by
  cases x with
  | ok a => exact .ok (h a)
  | error e => exact .error e

theorem bind {x : Except Error α} {y : Except Error β} {f : α → Except Error α'}
    {g : β → Except Error β'} (h : SameOutcome R x y)
    (hfg : ∀ a b, R a b → SameOutcome S (f a) (g b)) : SameOutcome S (x >>= f) (y >>= g) := by
  cases h with
  | ok hab => exact hfg _ _ hab
  | error e => exact .error e

end SameOutcome

namespace Compilation

/-- Two compilations that differ at most in which bindings they have collected. -/
structure Abreast (c c' : Compilation) : Prop where
  limits : c.limits = c'.limits
  depth : c.depth = c'.depth
  operators : c.operators = c'.operators
  bindings : c.bindings.length = c'.bindings.length

theorem Abreast.refl (c : Compilation) : Abreast c c :=
  ⟨rfl, rfl, rfl, rfl⟩

/-- Compilations that are abreast may go deeper together, or neither may. -/
theorem Abreast.depth_lt_iff {c c' : Compilation} (h : Abreast c c') :
    c.depth < c.limits.nestingDepth ↔ c'.depth < c'.limits.nestingDepth := by
  rw [h.depth, h.limits]

/-- Whatever two compilations count and collect, as long as it is equally much. -/
theorem Abreast.after {c c' : Compilation} (h : Abreast c c') (n : Nat) {bs bs' : List Binding}
    (hbs : bs.length = bs'.length) : Abreast (c.after n bs) (c'.after n bs') where
  limits := h.limits
  depth := h.depth
  operators := congrArg (· + n) h.operators
  bindings := by rw [after_bindings, after_bindings, List.length_append, List.length_append,
    h.bindings, hbs]

theorem Abreast.leave {c c' : Compilation} (h : Abreast c c') : Abreast c.leave c'.leave :=
  ⟨h.limits, congrArg (· - 1) h.depth, h.operators, h.bindings⟩

end Compilation

namespace CompileM

open Compilation

variable {α β α' β' : Type} {R : α → β → Prop} {S : α' → β' → Prop}

/-- Two runs that end abreast, with results that are related or with the same error. -/
inductive Agree (R : α → β → Prop) :
    EStateM.Result Error Compilation α → EStateM.Result Error Compilation β → Prop
  | ok {a : α} {b : β} {c c' : Compilation} : R a b → Abreast c c' → Agree R (.ok a c) (.ok b c')
  | error {c c' : Compilation} (e : Error) : Abreast c c' → Agree R (.error e c) (.error e c')

/-- Two steps that agree from wherever they begin abreast. -/
def Lockstep (R : α → β → Prop) (m : CompileM α) (m' : CompileM β) : Prop :=
  ∀ c c', Abreast c c' → Agree R (m c) (m' c')

namespace Lockstep

variable {m : CompileM α} {m' : CompileM β}

theorem pure {a : α} {b : β} (h : R a b) : Lockstep R (pure a) (pure b) :=
  fun _ _ hc => .ok h hc

theorem throw (e : Error) : Lockstep R (throw e) (throw e) :=
  fun _ _ hc => .error e hc

theorem get : Lockstep Abreast get get :=
  fun _ _ hc => .ok hc hc

theorem ofExcept {x : Except Error α} {y : Except Error β} (h : SameOutcome R x y) :
    Lockstep R (ofExcept x) (ofExcept y) := by
  cases h with
  | ok h => exact pure h
  | error e => exact throw e

theorem bind {g : α → CompileM α'} {g' : β → CompileM β'} (h : Lockstep R m m')
    (hg : ∀ a b, R a b → Lockstep S (g a) (g' b)) : Lockstep S (m >>= g) (m' >>= g') := by
  intro c c' hc
  have hm := h c c' hc
  generalize hrun : m c = r at hm
  generalize hrun' : m' c' = r' at hm
  cases hm with
  | ok hab hc =>
    rw [bind_run_ok hrun, bind_run_ok hrun']
    exact hg _ _ hab _ _ hc
  | error e hc =>
    rw [bind_run_error hrun, bind_run_error hrun']
    exact .error e hc

theorem map {f : α → α'} {f' : β → β'} (h : Lockstep R m m') (hf : ∀ a b, R a b → S (f a) (f' b)) :
    Lockstep S (f <$> m) (f' <$> m') := by
  rw [map_eq_pure_bind, map_eq_pure_bind]
  exact h.bind fun a b hab => pure (hf a b hab)

theorem countOperator : Lockstep Eq countOperator countOperator := by
  intro c c' hc
  have hcount : Abreast (c.after 1 []) (c'.after 1 []) := hc.after 1 rfl
  rw [countOperator_run, countOperator_run, ← hc.limits, ← hc.operators]
  split
  · exact .error _ hcount
  · exact .ok rfl hcount

/-- Equally many bindings may be collected, whatever they are. -/
theorem addBindings {bs bs' : List Binding} (h : bs.length = bs'.length) :
    Lockstep Eq (addBindings bs) (addBindings bs') := by
  intro c c' hc
  rw [addBindings_run, addBindings_run]
  exact .ok rfl (hc.after 0 h)

theorem nested (h : Lockstep R m m') : Lockstep R (nested m) (nested m') := by
  intro c c' hc
  rcases Nat.lt_or_ge c.depth c.limits.nestingDepth with hdepth | hdepth
  · have hdepth' := hc.depth_lt_iff.1 hdepth
    have hm := h { c with depth := c.depth + 1 } { c' with depth := c'.depth + 1 }
      ⟨hc.limits, congrArg (· + 1) hc.depth, hc.operators, hc.bindings⟩
    generalize hrun : m _ = r at hm
    generalize hrun' : m' _ = r' at hm
    cases hm with
    | ok hab hc =>
      rw [nested_run_ok hdepth hrun, nested_run_ok hdepth' hrun']
      exact .ok hab hc.leave
    | error e hc =>
      rw [nested_run_error hdepth hrun, nested_run_error hdepth' hrun']
      exact .error e hc.leave
  · have hdepth' := Nat.not_lt.1 fun h' => absurd (hc.depth_lt_iff.2 h') (Nat.not_lt.2 hdepth)
    rw [nested_run_of_le hdepth, nested_run_of_le hdepth', hc.limits]
    exact .error _ hc

end Lockstep

end CompileM

end BoundSql
