import BoundSql.Compilation.Basic

/-!
# What a step of a compilation yields

A compilation looks at its state only to keep to the limits. What a step gives and collects when
it succeeds is therefore the same in every state, and whether it succeeds is a question of how many
levels and operators are left. `CompileM.Yields` states this, and the lemmas below it follow the
ways in which steps are put together, so that the yield of a long step is read off its text.

* `Yields.bind`: one step after the other; the deeper of the two counts, the operators add up.
* `Yields.nested`: a step one level deeper.
* `yields_countOperator`, `yields_addBindings`: the steps that change the state.
-/

namespace BoundSql

namespace Compilation

/-- The compilation has kept to its limits so far. -/
structure Within (c : Compilation) : Prop where
  depth_le : c.depth ≤ c.limits.nestingDepth
  operators_le : c.operators ≤ c.limits.operators

/-- The beginning of every compilation keeps to the limits. -/
theorem within_start (limits : Limits) : Within { limits } :=
  ⟨Nat.zero_le _, Nat.zero_le _⟩

end Compilation

namespace CompileM

open Compilation

variable {α β : Type}

/-- `m` yields `r` at the price of `d` levels and `n` operators. Where lists may have `items` items,
`m` succeeds exactly when `r` is a value with bindings and so many levels and operators are left;
it then gives the value, collects the bindings and accounts for the operators. -/
def Yields (items : Nat) (m : CompileM α) (r : Option (α × List Binding)) (d n : Nat) : Prop :=
  ∀ c : Compilation, c.limits.listItems = items → c.Within → ∀ a c',
    m c = .ok a c' ↔ ∃ bs, r = some (a, bs) ∧ c.depth + d ≤ c.limits.nestingDepth ∧
      c.operators + n ≤ c.limits.operators ∧ c' = c.after n bs

variable {items d n d' n' : Nat} {m : CompileM α} {r r' : Option (α × List Binding)}

/-! ## Single steps -/

/-- A step that never succeeds yields nothing, at any price. -/
theorem yields_none (h : ∀ c, c.limits.listItems = items → ∀ a c', m c ≠ .ok a c') (d n : Nat) :
    Yields items m none d n := by
  intro c hitems _ a c'
  simpa using h c hitems a c'

theorem yields_throw (e : Error) (d n : Nat) : Yields (α := α) items (throw e) none d n :=
  yields_none (fun c _ a c' h => by cases h) d n

theorem yields_pure (a : α) : Yields items (pure a) (some (a, [])) 0 0 := by
  intro c _ hc b c'
  simp only [pure_run, EStateM.Result.ok.injEq, Option.some.injEq, Prod.mk.injEq, Nat.add_zero]
  constructor
  · rintro ⟨rfl, rfl⟩
    exact ⟨[], ⟨rfl, rfl⟩, hc.depth_le, hc.operators_le, c.after_zero_nil.symm⟩
  · rintro ⟨bs, ⟨rfl, rfl⟩, -, -, rfl⟩
    exact ⟨rfl, c.after_zero_nil.symm⟩

theorem yields_ofExcept (x : Except Error α) :
    Yields items (ofExcept x) (x.toOption.map fun a => (a, [])) 0 0 := by
  cases x with
  | ok a => exact yields_pure a
  | error e => exact yields_throw e 0 0

theorem yields_countOperator : Yields items countOperator (some ((), [])) 0 1 := by
  intro c _ hc a c'
  rw [countOperator_run]
  simp only [Counter.toNat_nat, Counter.add_nat]
  split
  · next h =>
    simp only [reduceCtorEq, false_iff]
    rintro ⟨bs, -, -, hn, -⟩
    omega
  · next h =>
    simp only [EStateM.Result.ok.injEq, Option.some.injEq, Prod.mk.injEq, true_and]
    constructor
    · rintro rfl
      exact ⟨[], rfl, hc.depth_le, by omega, rfl⟩
    · rintro ⟨bs, rfl, -, -, rfl⟩
      rfl

theorem yields_addBindings (bs : List Binding) :
    Yields items (addBindings bs) (some ((), bs)) 0 0 := by
  intro c _ hc a c'
  simp only [addBindings_run, EStateM.Result.ok.injEq, Option.some.injEq, Prod.mk.injEq, true_and]
  constructor
  · rintro rfl
    exact ⟨bs, rfl, hc.depth_le, hc.operators_le, rfl⟩
  · rintro ⟨bs', rfl, -, -, rfl⟩
    rfl

/-! ## Steps put together -/

namespace Yields

theorem cast (h : Yields items m r d n) (hr : r = r') (hd : d = d') (hn : n = n') :
    Yields items m r' d' n' := by
  subst hr hd hn
  exact h

/-- One step after the other: the second begins where the first ends, so the greater depth of the
two must be left and all their operators. -/
theorem bind {g : α → CompileM β} {s : α → Option (β × List Binding)}
    (hm : Yields items m r d n) (hg : ∀ a, Yields items (g a) (s a) d' n') :
    Yields items (m >>= g) (r.bind fun p => (s p.1).map fun q => (q.1, p.2 ++ q.2))
      (max d d') (n + n') := by
  intro c hitems hc b c'
  rw [bind_eq_ok_iff]
  constructor
  · rintro ⟨a, c₁, h₁, h₂⟩
    obtain ⟨bs, rfl, hd, hn, rfl⟩ := (hm c hitems hc a c₁).1 h₁
    obtain ⟨bs', hs, hd', hn', rfl⟩ :=
      (hg a (c.after n bs) hitems ⟨hc.depth_le, hn⟩ b c').1 h₂
    simp only [after_depth, after_limits, after_operators, Counter.add_nat] at hd' hn'
    exact ⟨bs ++ bs', by simp [hs], by omega, by omega, after_after ..⟩
  · rintro ⟨bs, hr, hd, hn, rfl⟩
    obtain ⟨⟨a, bs₁⟩, rfl, hs⟩ := Option.bind_eq_some_iff.1 hr
    obtain ⟨⟨b', bs₂⟩, hs', heq⟩ := Option.map_eq_some_iff.1 hs
    obtain ⟨rfl, rfl⟩ := Prod.mk.inj heq
    have hn₁ : c.operators + n ≤ c.limits.operators := by omega
    refine ⟨a, c.after n bs₁, (hm c hitems hc _ _).2 ⟨bs₁, rfl, by omega, hn₁, rfl⟩, ?_⟩
    refine (hg a (c.after n bs₁) hitems ⟨hc.depth_le, hn₁⟩ _ _).2 ⟨bs₂, hs', ?_, ?_, ?_⟩
    · simp only [after_depth, after_limits]
      omega
    · simp only [after_operators, after_limits, Counter.add_nat]
      omega
    · exact (after_after ..).symm

theorem map {f : α → β} (hm : Yields items m r d n) :
    Yields items (f <$> m) (r.map fun p => (f p.1, p.2)) d n := by
  intro c hitems hc b c'
  rw [map_eq_ok_iff]
  constructor
  · rintro ⟨a, h, rfl⟩
    obtain ⟨bs, rfl, hd, hn, rfl⟩ := (hm c hitems hc a c').1 h
    exact ⟨bs, rfl, hd, hn, rfl⟩
  · rintro ⟨bs, hr, hd, hn, rfl⟩
    obtain ⟨⟨a, bs'⟩, rfl, heq⟩ := Option.map_eq_some_iff.1 hr
    obtain ⟨rfl, rfl⟩ := Prod.mk.inj heq
    exact ⟨a, (hm c hitems hc _ _).2 ⟨bs', rfl, hd, hn, rfl⟩, rfl⟩

/-- A step one level deeper costs one level more. -/
theorem nested (hm : Yields items m r d n) : Yields items (nested m) r (d + 1) n := by
  intro c hitems hc a c'
  rw [nested_eq_ok_iff]
  have hin (hdepth : c.depth < c.limits.nestingDepth) :=
    hm { c with depth := c.depth + 1 } hitems ⟨hdepth, hc.operators_le⟩ a
  constructor
  · rintro ⟨hdepth, c₁, hrun, rfl⟩
    obtain ⟨bs, rfl, hd, hn, rfl⟩ := (hin hdepth c₁).1 hrun
    exact ⟨bs, rfl, by simp only at hd; omega, hn, rfl⟩
  · rintro ⟨bs, rfl, hd, hn, rfl⟩
    have hdepth : c.depth < c.limits.nestingDepth := by omega
    exact ⟨hdepth, _, (hin hdepth _).2 ⟨bs, rfl, by simp only; omega, hn, rfl⟩, rfl⟩

end Yields

end CompileM

end BoundSql
