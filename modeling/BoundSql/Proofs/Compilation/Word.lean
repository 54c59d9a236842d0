import BoundSql.Proofs.Compilation.Composed

/-!
# Compilations that count in words

The program counts operators in words, which begin again at zero behind the greatest one.
`Compilation.exact` reads the word of a compilation as a number, and `Compilation.HasRoom` says that
so many more operators can be counted before the word begins again.

Where there is room, a step that counts in words does what it does when it counts with numbers
(`CompileM.Composed.run_exact`), so that the word never becomes smaller
(`CompileM.Composed.operators_le_leftBy`).
-/

namespace BoundSql

/-- Words are added like numbers as long as the sum fits in a word. -/
theorem Counter.toNat_add_word {c : UInt64} {n : Nat} (h : c.toNat + n < UInt64.size) :
    toNat (add c n) = c.toNat + n := by
  rw [toNat_word, add_word, UInt64.toNat_add, UInt64.toNat_ofNat', Nat.add_mod_mod]
  exact Nat.mod_eq_of_lt h

theorem Counter.toNat_add_word_le (c : UInt64) (n : Nat) : toNat (add c n) ≤ c.toNat + n := by
  rw [toNat_word, add_word, UInt64.toNat_add, UInt64.toNat_ofNat', Nat.add_mod_mod]
  exact Nat.mod_le _ _

namespace Compilation

/-- The compilation with its operators counted with the number that the word stands for. -/
def exact (c : Compilation UInt64) : Compilation where
  limits := c.limits
  depth := c.depth
  operators := c.operators.toNat
  bindings := c.bindings

@[simp] theorem exact_limits (c : Compilation UInt64) : c.exact.limits = c.limits := rfl

/-- There is room for `n` more operators: either so many fit in the word, or the limit on operators
stops the compilation before the word begins again at zero. -/
def HasRoom (c : Compilation UInt64) (n : Nat) : Prop :=
  c.operators.toNat + n < UInt64.size ∨
    max c.operators.toNat c.limits.operators + 1 < UInt64.size

variable {c : Compilation UInt64} {m n : Nat}

theorem HasRoom.mono (h : c.HasRoom n) (hm : m ≤ n) : c.HasRoom m :=
  h.imp_left fun hn => Nat.lt_of_le_of_lt (Nat.add_le_add_left hm _) hn

/-- Where there is room for an operator, the word goes on as the number does. -/
theorem HasRoom.exact_after_one (h : c.HasRoom 1) : (c.after 1 []).exact = c.exact.after 1 [] := by
  have hfits : c.operators.toNat + 1 < UInt64.size := by
    rcases h with h | h <;> omega
  have hadd : (Counter.add c.operators 1).toNat = c.operators.toNat + 1 :=
    Counter.toNat_add_word hfits
  simp only [exact, after, hadd, Counter.add_nat]

@[simp] theorem exact_after_zero (c : Compilation UInt64) (bs : List Binding) :
    (c.after 0 bs).exact = c.exact.after 0 bs := by
  simp only [exact, after, Counter.add_zero]

@[simp] theorem exact_leave (c : Compilation UInt64) : c.leave.exact = c.exact.leave := rfl

/-- A compilation that has counted some operators, but none past the limit, has room left for the
others. -/
theorem HasRoom.after (h : c.HasRoom (m + n)) {k : Nat} (hk : k ≤ m) (bs : List Binding)
    (hoperators : (c.after k bs).operators = c.operators ∨
      Counter.toNat (c.after k bs).operators ≤ c.limits.operators) :
    (c.after k bs).HasRoom n := by
  have hle : (c.after k bs).operators.toNat ≤ c.operators.toNat + k :=
    Counter.toNat_add_word_le c.operators k
  rcases h with hfits | hstops
  · exact .inl (by omega)
  · refine .inr ?_
    rw [after_limits]
    rcases hoperators with heq | hkept
    · rwa [heq]
    · rw [Counter.toNat_word] at hkept
      omega

end Compilation

namespace CompileM

open Compilation

variable {α : Type}

/-- How a step ends that counts in words, with the numbers that they stand for. -/
def exactly : EStateM.Result Error (Compilation UInt64) α → EStateM.Result Error Compilation α
  | .ok a c => .ok a c.exact
  | .error e c => .error e c.exact

@[simp] theorem leftBy_exactly (r : EStateM.Result Error (Compilation UInt64) α) :
    leftBy (exactly r) = (leftBy r).exact := by
  cases r <;> rfl

namespace Composed

variable {m : CompileWith UInt64 α} {m' : CompileM α} {c : Compilation UInt64} {n : Nat}

/-- **Words count like numbers where there is room.** -/
theorem run_exact (h : Composed n m m') (hroom : c.HasRoom n) :
    m' c.exact = exactly (m c) := by
  induction h generalizing c with
  | pure a => rfl
  | throw e => rfl
  | countOperator =>
    have hcount := hroom.exact_after_one
    have hoperators : Counter.toNat (Counter.add c.operators 1) =
        Counter.toNat (Counter.add c.exact.operators 1) := congrArg operators hcount
    rw [countOperator_run, countOperator_run, ← hoperators, ← hcount]
    simp only [apply_ite exactly]
    rfl
  | addBindings bs =>
    rw [addBindings_run, addBindings_run, exactly, exact_after_zero]
  | readList op items =>
    rw [readList_run, readList_run, exact_limits]
    cases Fragment.ofList op items c.limits.listItems <;> rfl
  | @bind _ _ n n' m _ _ _ hm _ ih ihg =>
    have hrun' := ih (hroom.mono (Nat.le_add_right n n'))
    cases hrun : m c with
    | ok a c₁ =>
      obtain ⟨k, hk, bs, rfl⟩ := hm.eq_after_of_ok hrun
      have hleft : (c.after k bs).HasRoom n' := hroom.after hk bs (hm.operators_of_ok hrun)
      rw [hrun] at hrun'
      rw [bind_run_ok hrun, bind_run_ok hrun', ihg a hleft]
    | error e c₁ =>
      rw [hrun] at hrun'
      rw [bind_run_error hrun, bind_run_error hrun', exactly]
  | @nested _ n m m' _ ih =>
    rcases Nat.lt_or_ge c.depth c.limits.nestingDepth with hdepth | hdepth
    · have hdepth' : c.exact.depth < c.exact.limits.nestingDepth := hdepth
      have hinner' : m' { c.exact with depth := c.exact.depth + 1 } = _ :=
        ih (c := { c with depth := c.depth + 1 }) hroom
      cases hinner : m { c with depth := c.depth + 1 } with
      | ok a c₁ =>
        rw [hinner] at hinner'
        rw [nested_run_ok hdepth hinner, nested_run_ok hdepth' hinner', exactly, exact_leave]
      | error e c₁ =>
        rw [hinner] at hinner'
        rw [nested_run_error hdepth hinner, nested_run_error hdepth' hinner', exactly, exact_leave]
    · have hdepth' : c.exact.limits.nestingDepth ≤ c.exact.depth := hdepth
      rw [nested_run_of_le hdepth, nested_run_of_le hdepth', exactly, exact_limits]
  | mono _ hn ih => exact ih (hroom.mono hn)

/-- The word never becomes smaller where there is room. -/
theorem operators_le_leftBy (h : Composed n m m') (hroom : c.HasRoom n) :
    c.operators ≤ (leftBy (m c)).operators := by
  obtain ⟨k, -, bs, hafter⟩ := h.symm.exists_after c.exact
  rw [h.run_exact hroom, leftBy_exactly] at hafter
  have hoperators : (leftBy (m c)).operators.toNat = c.operators.toNat + k :=
    congrArg operators hafter
  rw [UInt64.le_iff_toNat_le, hoperators]
  exact Nat.le_add_right _ k

end Composed

end CompileM

end BoundSql
