import BoundSql.Proofs.Compilation.Relaxed
import BoundSql.Proofs.Filter.Composed

/-!
# Compiling filters under relaxed limits

Whatever is composed like the compiler keeps what it does when the limits are relaxed
(`CompileM.Composed.kept`), so a document that compiles under some limits compiles to the same
fragment under relaxed ones, and one that is refused for another cause than a limit is refused for
the same cause (`compile_relaxed`). The limits decide whether a document compiles and nothing else;
and as no limit is looked at in a way that what follows depends on it, relaxing one can never bring
up another cause in place of the first.
-/

namespace BoundSql

open CompileM

/-- **Relaxed limits keep a clause**, and they keep every refusal that is not for a limit. -/
theorem Filter.kept_compile (qualifier : Option Identifier) (f : Filter) :
    Kept (compile qualifier f) (compile qualifier f) :=
  (composed_compile qualifier f).kept

/-- **Limits are guards and nothing else.** Under relaxed limits, a document that compiled compiles
to the same text with the same bindings, and one that was refused for another cause than a limit is
refused for the same cause. -/
theorem compile_relaxed {limits limits' : Limits} (h : limits.RelaxedTo limits') (v : Value) :
    (∀ f, compile limits v = .ok f → compile limits' v = .ok f) ∧
      ∀ e, e.isLimit = false → compile limits v = .error e → compile limits' v = .error e := by
  have hrun := Filter.kept_compile none (Filter.ofValue v) { limits } { limits := limits' }
    ⟨h, rfl, rfl, rfl⟩
  unfold compile
  revert hrun
  generalize (Filter.ofValue v).compile none { limits } = r
  generalize (Filter.ofValue v).compile none { limits := limits' } = r'
  intro hrun
  cases hrun with
  | ok clause hc =>
    refine ⟨fun f hf => ?_, nofun⟩
    simp only [hc.bindings_eq]
    exact hf
  | error e c c' => exact ⟨nofun, fun _ _ he => he⟩
  | stopped hlimit c r' =>
    refine ⟨nofun, fun e hother he => ?_⟩
    cases he
    rw [hlimit] at hother
    cases hother

/-- A list that just fits keeps its fragment, and a bad alias behind it keeps its refusal. -/
theorem compile_relaxed_of_full_list :
    Limits.RelaxedTo { nestingDepth := 2, operators := 1, listItems := 2, queryLength := 9 } {} ∧
      compile {} (.object [("a", .object [("in", .array [.int 1, .null])])]) =
        .ok { text := "((\"a\" IN (?,?)))", bindings := [.integer 1, .null] } ∧
      compile {} (.object [("a", .object [("in", .array [.int 1, .null])]), ("$2", .object [])]) =
        .error (.badIdentifier "2") := by
  have h : Limits.RelaxedTo
      { nestingDepth := 2, operators := 1, listItems := 2, queryLength := 9 } {} :=
    ⟨by decide, by decide, by decide⟩
  refine ⟨h, (compile_relaxed h _).1 _ ?_, (compile_relaxed h _).2 _ rfl ?_⟩
  · rfl
  · rfl

end BoundSql
