import BoundSql.Compilation.Basic

/-!
# How a step of a compilation ends

A step of a compilation ends with a value, with a cause of its own, or because a limit on the whole
compilation is reached. `CompileM.Ends` says what is known of each way: the values satisfy one
predicate and the causes another one, and a limit is reached only by a step that goes deep enough or
uses enough operators. The lemmas follow the ways in which steps are put together.

* `Ends.bind`: one step after the other; the deeper of the two counts, the operators add up.
* `Ends.nested`: a step one level deeper.
* `Ends.ofExcept`, `ends_countOperator`, `ends_addBindings`: single steps.
-/

namespace BoundSql

namespace Compilation

/-- A compilation that has come back to its depth after at most `n` more operators. -/
structure Advances (c c' : Compilation) (n : Nat) : Prop where
  limits_eq : c'.limits = c.limits
  depth_eq : c'.depth = c.depth
  operators_le : c'.operators ≤ c.operators + n

theorem Advances.refl (c : Compilation) : Advances c c 0 :=
  ⟨rfl, rfl, Nat.le_refl _⟩

theorem Advances.trans {c c' c'' : Compilation} {m n : Nat} (h : Advances c c' m)
    (h' : Advances c' c'' n) : Advances c c'' (m + n) where
  limits_eq := h'.limits_eq.trans h.limits_eq
  depth_eq := h'.depth_eq.trans h.depth_eq
  operators_le := by
    have := h.operators_le
    have := h'.operators_le
    omega

theorem Advances.mono {c c' : Compilation} {m n : Nat} (h : Advances c c' m) (hn : m ≤ n) :
    Advances c c' n :=
  ⟨h.limits_eq, h.depth_eq, Nat.le_trans h.operators_le (Nat.add_le_add_left hn _)⟩

end Compilation

namespace CompileM

open Compilation

variable {α β : Type} {Q : α → Prop} {R : β → Prop} {P : Error → Prop} {limits : Limits}
  {d d' n n' : Nat}

/-- Where a step ends that began somewhere. -/
inductive Ending (Q : α → Prop) (P : Error → Prop) (d n : Nat) (c : Compilation) :
    EStateM.Result Error Compilation α → Prop
  | value {a : α} {c' : Compilation} : Q a → Advances c c' n → Ending Q P d n c (.ok a c')
  | cause {e : Error} {c' : Compilation} : P e → Ending Q P d n c (.error e c')
  /-- The step goes deeper than it may. -/
  | tooDeep {c' : Compilation} : c.limits.nestingDepth < c.depth + d →
      Ending Q P d n c (.error (.tooDeep c.limits.nestingDepth) c')
  /-- The step uses more operators than it may. -/
  | tooManyOperators {c' : Compilation} : c.limits.operators < c.operators + n →
      Ending Q P d n c (.error (.tooManyOperators c.limits.operators) c')

/-- Under some limits, `m` ends with a value of which `Q` holds or with a cause of which `P` holds,
or because a limit is reached on its way `d` levels down and through `n` operators. -/
def Ends (limits : Limits) (m : CompileM α) (Q : α → Prop) (P : Error → Prop) (d n : Nat) : Prop :=
  ∀ c : Compilation, c.limits = limits → Ending Q P d n c (m c)

theorem Ending.mono {c : Compilation} {r : EStateM.Result Error Compilation α}
    (h : Ending Q P d n c r) (hd : d ≤ d') (hn : n ≤ n') : Ending Q P d' n' c r := by
  cases h with
  | value ha hc => exact .value ha (hc.mono hn)
  | cause he => exact .cause he
  | tooDeep hlt => exact .tooDeep (by omega)
  | tooManyOperators hlt => exact .tooManyOperators (by omega)

/-! ## Single steps -/

theorem ends_pure {a : α} (h : Q a) : Ends limits (pure a) Q P 0 0 :=
  fun c _ => .value h (.refl c)

theorem ends_throw {e : Error} (h : P e) : Ends limits (throw e) Q P d n :=
  fun _ _ => .cause h

theorem ends_countOperator : Ends limits countOperator (fun _ => True) P 0 1 := by
  intro c _
  rw [countOperator_run]
  split
  · next h => exact .tooManyOperators h
  · exact .value trivial ⟨rfl, rfl, Nat.le_refl _⟩

theorem ends_addBindings (bs : List Binding) :
    Ends limits (addBindings bs) (fun _ => True) P 0 0 :=
  fun _ _ => .value trivial ⟨rfl, rfl, Nat.le_refl _⟩

namespace Ends

variable {m : CompileM α}

/-- A step may be said to go deeper and to use more than it does. -/
theorem mono (h : Ends limits m Q P d n) (hd : d ≤ d') (hn : n ≤ n') : Ends limits m Q P d' n' :=
  fun c hc => (h c hc).mono hd hn

theorem ofExcept {x : Except Error α} (hok : ∀ a, x = .ok a → Q a)
    (herror : ∀ e, x = .error e → P e) : Ends limits (ofExcept x) Q P 0 0 := by
  cases x with
  | ok a => exact ends_pure (hok a rfl)
  | error e => exact ends_throw (herror e rfl)

/-! ## Steps put together -/

/-- One step after the other: the second begins at the depth of the first, and with the operators
that the first has used. -/
theorem bind {g : α → CompileM β} (h : Ends limits m Q P d n)
    (hg : ∀ a, Q a → Ends limits (g a) R P d' n') :
    Ends limits (m >>= g) R P (max d d') (n + n') := by
  intro c hc
  have hm := h c hc
  cases hrun : m c with
  | error e c' =>
    rw [hrun] at hm
    rw [bind_run_error hrun]
    cases hm with
    | cause he => exact .cause he
    | tooDeep hlt => exact .tooDeep (by omega)
    | tooManyOperators hlt => exact .tooManyOperators (by omega)
  | ok a c' =>
    rw [hrun] at hm
    rw [bind_run_ok hrun]
    obtain ⟨ha, hadvances⟩ := hm
    have hgc := hg a ha c' (hadvances.limits_eq.trans hc)
    obtain ⟨hlimits, hdepth, hoperators⟩ := hadvances
    generalize g a c' = r at hgc ⊢
    cases hgc with
    | value hb hadvances' =>
      exact .value hb (Advances.trans ⟨hlimits, hdepth, hoperators⟩ hadvances')
    | cause he => exact .cause he
    | tooDeep hlt =>
      rw [hlimits, hdepth] at hlt
      rw [hlimits]
      exact .tooDeep (by omega)
    | tooManyOperators hlt =>
      rw [hlimits] at hlt
      rw [hlimits]
      exact .tooManyOperators (by omega)

theorem map {f : α → β} (h : Ends limits m Q P d n) (hf : ∀ a, Q a → R (f a)) :
    Ends limits (f <$> m) R P d n := by
  rw [map_eq_pure_bind]
  refine (h.bind fun a ha => ends_pure (hf a ha)).mono ?_ ?_
  · exact Nat.le_of_eq (Nat.max_zero d)
  · exact Nat.le_of_eq (Nat.add_zero n)

/-- A step that looks at the limits. -/
theorem read {g : Compilation → CompileM α}
    (h : ∀ c, c.limits = limits → Ends limits (g c) Q P d n) : Ends limits (get >>= g) Q P d n :=
  fun c hc => h c hc c hc

/-- A step one level deeper. It comes back up if it ends with a value. -/
theorem nested (h : Ends limits m Q P d n) : Ends limits (nested m) Q P (d + 1) n := by
  intro c hc
  rcases Nat.lt_or_ge c.depth c.limits.nestingDepth with hdepth | hdepth
  · have hin := h { c with depth := c.depth + 1 } hc
    cases hrun : m { c with depth := c.depth + 1 } with
    | ok a c' =>
      rw [hrun] at hin
      rw [nested_run_ok hdepth hrun]
      obtain ⟨ha, hadvances⟩ := hin
      exact .value ha ⟨hadvances.limits_eq, congrArg (· - 1) hadvances.depth_eq,
        hadvances.operators_le⟩
    | error e c' =>
      rw [hrun] at hin
      rw [nested_run_error hdepth hrun]
      cases hin with
      | cause he => exact .cause he
      | tooDeep hlt => exact .tooDeep (by simp only at hlt; omega)
      | tooManyOperators hlt => exact .tooManyOperators hlt
  · rw [nested_run_of_le hdepth]
    exact .tooDeep (by omega)

end Ends

end CompileM

end BoundSql
