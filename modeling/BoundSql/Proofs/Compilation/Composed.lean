import BoundSql.Proofs.Compilation.Relaxed

/-!
# What steps of a compilation are composed of

A step of a compilation is composed of a few single steps, one after the other and one level deeper
(`CompileM.Composed`). All that these do to the state is to count an operator, to collect bindings,
and to go down a level and come back. So a few things are true of every step that is composed of
them, each by induction on how the step is composed.

* `Composed.extends_leftBy`: whether it fails or not, a step leaves the limits and the depth as they
  are, counts no more operators than it may, and adds to the bindings.
* `Composed.operators_of_ok`: a step that succeeds has kept to the limit on operators, if it has
  counted any.
* `Composed.ok_of_le`: a step that succeeds somewhere does the same wherever enough is left.
* `Composed.kept`: a step does the same under relaxed limits.

A step is the same whatever operators are counted with, so `Composed` speaks of the step for two
counters at once: what one of the two does is compared with what the other one does.
-/

namespace BoundSql

/-- A compilation that has come back to its depth after at most `n` more operators, with none of its
bindings lost. -/
structure Compilation.Extends {N : Type} [Counter N] (c c' : Compilation N) (n : Nat) : Prop where
  limits_eq : c'.limits = c.limits
  depth_eq : c'.depth = c.depth
  operators_eq : ∃ k ≤ n, c'.operators = Counter.add c.operators k
  bindings_prefix : c.bindings <+: c'.bindings

namespace CompileM

open Compilation

variable {N N' : Type} {α β : Type}

/-- The state that a step leaves behind, whether it fails or not. -/
def leftBy : EStateM.Result Error (Compilation N) α → Compilation N
  | .ok _ c => c
  | .error _ c => c

section Runs

variable {m : CompileWith N α} {c c' : Compilation N} {a : α}

theorem leftBy_bind (m : CompileWith N α) (g : α → CompileWith N β) (c : Compilation N) :
    leftBy ((m >>= g) c) = leftBy (m c) ∨
      ∃ a, leftBy ((m >>= g) c) = leftBy (g a (leftBy (m c))) := by
  cases hrun : m c with
  | ok a c₁ =>
    rw [bind_run_ok hrun]
    exact .inr ⟨a, rfl⟩
  | error e c₁ =>
    rw [bind_run_error hrun]
    exact .inl rfl

/-- A step one level deeper is refused, or it comes back from where the step ends there. -/
theorem leftBy_nested (m : CompileWith N α) (c : Compilation N) :
    leftBy (nested m c) = c ∨
      leftBy (nested m c) = (leftBy (m { c with depth := c.depth + 1 })).leave := by
  rcases Nat.lt_or_ge c.depth c.limits.nestingDepth with hdepth | hdepth
  · refine .inr ?_
    cases hrun : m { c with depth := c.depth + 1 } with
    | ok a c₁ => rw [nested_run_ok hdepth hrun, leftBy, leftBy]
    | error e c₁ => rw [nested_run_error hdepth hrun, leftBy, leftBy]
  · rw [nested_run_of_le hdepth]
    exact .inl rfl

@[simp] theorem leftBy_countOperator [Counter N] (c : Compilation N) :
    leftBy (countOperator c) = c.after 1 [] := by
  rw [countOperator_run]
  split <;> rfl

@[simp] theorem leftBy_ofExcept (x : Except Error α) (c : Compilation N) :
    leftBy ((ofExcept x : CompileWith N α) c) = c := by
  cases x <;> rfl

theorem ofExcept_eq_ok_iff {x : Except Error α} :
    (ofExcept x : CompileWith N α) c = .ok a c' ↔ x = .ok a ∧ c' = c := by
  cases x with
  | ok b => simp [eq_comm]
  | error e => simp

end Runs

/-- The list of some items, which may be longer than the limits allow. -/
def readList (op : Operator) (items : List Value) : CompileWith N Fragment :=
  get >>= fun c => ofExcept (Fragment.ofList op items c.limits.listItems)

theorem readList_run (op : Operator) (items : List Value) (c : Compilation N) :
    readList op items c =
      (ofExcept (Fragment.ofList op items c.limits.listItems) : CompileWith N Fragment) c := rfl

variable [Counter N] [Counter N']

/-- A step for each of two counters, composed of the same single steps, of which at most `n` count
an operator. Of the state they see how long a list may be, and nothing else. -/
inductive Composed : {α : Type} → Nat → CompileWith N α → CompileWith N' α → Prop
  | pure {α : Type} (a : α) : Composed 0 (pure a) (pure a)
  | throw {α : Type} (e : Error) :
      Composed 0 (throw e : CompileWith N α) (throw e : CompileWith N' α)
  | countOperator : Composed 1 countOperator countOperator
  | addBindings (bs : List Binding) : Composed 0 (addBindings bs) (addBindings bs)
  | readList (op : Operator) (items : List Value) : Composed 0 (readList op items)
      (readList op items)
  | bind {α β : Type} {n n' : Nat} {m : CompileWith N α} {m' : CompileWith N' α}
      {g : α → CompileWith N β} {g' : α → CompileWith N' β} : Composed n m m' →
      (∀ a, Composed n' (g a) (g' a)) → Composed (n + n') (m >>= g) (m' >>= g')
  | nested {α : Type} {n : Nat} {m : CompileWith N α} {m' : CompileWith N' α} : Composed n m m' →
      Composed n (nested m) (nested m')
  /-- A step may be said to count more operators than it does. -/
  | mono {α : Type} {n n' : Nat} {m : CompileWith N α} {m' : CompileWith N' α} : Composed n m m' →
      n ≤ n' → Composed n' m m'

namespace Composed

variable {m : CompileWith N α} {m' : CompileWith N' α} {c c' : Compilation N} {a : α} {n : Nat}

theorem ofExcept (x : Except Error α) :
    Composed 0 (ofExcept x : CompileWith N α) (ofExcept x : CompileWith N' α) := by
  cases x with
  | ok a => exact .pure a
  | error e => exact .throw e

theorem map {f : α → β} (h : Composed n m m') : Composed n (f <$> m) (f <$> m') := by
  rw [map_eq_pure_bind, map_eq_pure_bind]
  exact h.bind fun a => .pure (f a)

theorem symm (h : Composed n m m') : Composed n m' m := by
  induction h with
  | pure a => exact .pure a
  | throw e => exact .throw e
  | countOperator => exact .countOperator
  | addBindings bs => exact .addBindings bs
  | readList op items => exact .readList op items
  | bind _ _ ih ihg => exact ih.bind ihg
  | nested _ ih => exact ih.nested
  | mono _ hn ih => exact ih.mono hn

/-- **What a step leaves behind**: the limits and the depth as they were, and more operators and
bindings or none. -/
theorem exists_after (h : Composed n m m') (c : Compilation N) :
    ∃ k ≤ n, ∃ bs, leftBy (m c) = c.after k bs := by
  induction h generalizing c with
  | pure a => exact ⟨0, Nat.le_refl _, [], c.after_zero_nil.symm⟩
  | throw e => exact ⟨0, Nat.le_refl _, [], c.after_zero_nil.symm⟩
  | countOperator => exact ⟨1, Nat.le_refl _, [], leftBy_countOperator c⟩
  | addBindings bs => exact ⟨0, Nat.le_refl _, bs, by rw [addBindings_run, leftBy]⟩
  | readList op items =>
    refine ⟨0, Nat.le_refl _, [], ?_⟩
    rw [readList_run, after_zero_nil]
    exact leftBy_ofExcept _ c
  | @bind _ _ n n' m _ g _ _ _ ih ihg =>
    obtain ⟨k, hk, bs, hm⟩ := ih c
    rcases leftBy_bind m g c with hstop | ⟨a, hgo⟩
    · exact ⟨k, Nat.le_add_right_of_le hk, bs, hstop.trans hm⟩
    · obtain ⟨k', hk', bs', hg⟩ := ihg a (c.after k bs)
      refine ⟨k + k', Nat.add_le_add hk hk', bs ++ bs', ?_⟩
      rw [hgo, hm, hg, after_after]
  | @nested _ n m _ _ ih =>
    rcases leftBy_nested m c with hrefused | hback
    · exact ⟨0, Nat.zero_le n, [], hrefused.trans c.after_zero_nil.symm⟩
    · obtain ⟨k, hk, bs, hm⟩ := ih { c with depth := c.depth + 1 }
      refine ⟨k, hk, bs, ?_⟩
      rw [hback, hm]
      rfl
  | mono _ hn ih =>
    obtain ⟨k, hk, bs, hm⟩ := ih c
    exact ⟨k, Nat.le_trans hk hn, bs, hm⟩

theorem eq_after_of_ok (h : Composed n m m') (hrun : m c = .ok a c') :
    ∃ k ≤ n, ∃ bs, c' = c.after k bs := by
  have hafter := h.exists_after c
  rwa [hrun] at hafter

/-- A step goes back to its depth and loses nothing, whether it fails or not. -/
theorem extends_leftBy (h : Composed n m m') (c : Compilation N) :
    c.Extends (leftBy (m c)) n := by
  obtain ⟨k, hk, bs, hafter⟩ := h.exists_after c
  rw [hafter]
  exact ⟨rfl, rfl, ⟨k, hk, rfl⟩, List.prefix_append _ _⟩

/-- A step that succeeds has counted no operator, or it has kept to the limit on them. -/
theorem operators_of_ok (h : Composed n m m') (hrun : m c = .ok a c') :
    c'.operators = c.operators ∨ Counter.toNat c'.operators ≤ c.limits.operators := by
  induction h generalizing c c' with
  | pure a =>
    cases hrun
    exact .inl rfl
  | throw e => cases hrun
  | countOperator =>
    rw [countOperator_run] at hrun
    split at hrun
    · cases hrun
    · next hcount =>
      cases hrun
      exact .inr (Nat.le_of_not_lt hcount)
  | addBindings bs =>
    rw [addBindings_run] at hrun
    cases hrun
    exact .inl (Counter.add_zero _)
  | readList op items =>
    rw [readList_run] at hrun
    obtain ⟨-, rfl⟩ := ofExcept_eq_ok_iff.1 hrun
    exact .inl rfl
  | bind hm _ ih ihg =>
    obtain ⟨a, c₁, hrun₁, hrun₂⟩ := bind_eq_ok_iff.1 hrun
    obtain ⟨k, -, bs, rfl⟩ := hm.eq_after_of_ok hrun₁
    rcases ihg a hrun₂ with heq | hle
    · rw [heq]
      exact ih hrun₁
    · exact .inr hle
  | nested _ ih =>
    obtain ⟨-, c₁, hinner, rfl⟩ := nested_eq_ok_iff.1 hrun
    exact (ih hinner :)
  | mono _ _ ih => exact ih hrun

/-- **A step does the same wherever it succeeds.** Where it is counted without an end, and no less
is left of the levels, the operators and the lengths of lists than it has used up somewhere, it
gives the same value, counts the same operators and collects the same bindings. -/
theorem ok_of_le {m' : CompileM α} (h : Composed n m m') (hrun : m c = .ok a c')
    {k : Compilation} (hdepth : k.depth ≤ c.depth)
    (hlevels : c.limits.nestingDepth ≤ k.limits.nestingDepth)
    (hitems : c.limits.listItems ≤ k.limits.listItems)
    (hoperators : k.operators + n ≤ k.limits.operators) :
    ∃ j ≤ n, ∃ bs, c' = c.after j bs ∧ m' k = .ok a (k.after j bs) := by
  induction h generalizing c c' k with
  | pure a =>
    cases hrun
    exact ⟨0, Nat.le_refl _, [], by simp⟩
  | throw e => cases hrun
  | countOperator =>
    rw [countOperator_run] at hrun ⊢
    split at hrun
    · cases hrun
    · cases hrun
      rw [Counter.toNat_nat, Counter.add_nat, if_neg (Nat.not_lt.2 hoperators)]
      exact ⟨1, Nat.le_refl _, [], rfl, rfl⟩
  | addBindings bs =>
    rw [addBindings_run] at hrun ⊢
    cases hrun
    exact ⟨0, Nat.le_refl _, bs, rfl, rfl⟩
  | readList op items =>
    rw [readList_run] at hrun
    obtain ⟨hlist, rfl⟩ := ofExcept_eq_ok_iff.1 hrun
    refine ⟨0, Nat.le_refl _, [], c'.after_zero_nil.symm, ?_⟩
    rw [readList_run, after_zero_nil]
    exact ofExcept_eq_ok_iff.2 ⟨Fragment.ofList_of_le hlist hitems, rfl⟩
  | @bind _ _ n n' _ _ _ _ _ _ ih ihg =>
    obtain ⟨a, c₁, hrun₁, hrun₂⟩ := bind_eq_ok_iff.1 hrun
    obtain ⟨j, hj, bs, rfl, hrun₁'⟩ := ih hrun₁ hdepth hlevels hitems (by omega)
    -- The second step finds no fewer operators left than it may count.
    have hleft : (k.after j bs).operators + n' ≤ k.limits.operators := by
      rw [after_operators, Counter.add_nat]
      omega
    obtain ⟨j', hj', bs', rfl, hrun₂'⟩ :=
      ihg a hrun₂ (k := k.after j bs) hdepth hlevels hitems hleft
    refine ⟨j + j', Nat.add_le_add hj hj', bs ++ bs', after_after .., ?_⟩
    rw [bind_run_ok hrun₁', hrun₂', after_after]
  | nested _ ih =>
    obtain ⟨hdeep, c₁, hinner, rfl⟩ := nested_eq_ok_iff.1 hrun
    obtain ⟨j, hj, bs, rfl, hinner'⟩ := ih hinner (k := { k with depth := k.depth + 1 })
      (Nat.succ_le_succ hdepth) hlevels hitems hoperators
    refine ⟨j, hj, bs, rfl, nested_run_ok ?_ hinner'⟩
    exact Nat.lt_of_le_of_lt hdepth (Nat.lt_of_lt_of_le hdeep hlevels)
  | mono _ hn ih =>
    obtain ⟨j, hj, hrun'⟩ := ih hrun hdepth hlevels hitems
      (Nat.le_trans (Nat.add_le_add_left hn _) hoperators)
    exact ⟨j, Nat.le_trans hj hn, hrun'⟩

/-- A step does the same under relaxed limits. -/
theorem kept {m m' : CompileM α} (h : Composed n m m') : Kept m m' := by
  induction h with
  | pure a => exact .pure a
  | throw e => exact .throw e
  | countOperator => exact .countOperator
  | addBindings bs => exact .addBindings bs
  | readList op items =>
    exact .read fun c c' hc => .ofExcept (Fragment.kept_ofList op items hc.limits.listItems_le)
  | bind _ _ ih ihg => exact ih.bind ihg
  | nested _ ih => exact ih.nested
  | mono _ _ ih => exact ih

end Composed

end CompileM

end BoundSql
