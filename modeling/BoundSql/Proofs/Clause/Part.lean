import BoundSql.Proofs.Clause.Reading

/-!
# The parts of a clause

A clause that combines others has them as its parts, and their parts too (`BoundClause.IsPart`). At
the bottom are the tests of targets, and whatever a clause has of bindings belongs to some of them.
-/

namespace BoundSql

namespace BoundClause

variable {b b' b'' : BoundClause} {bs : List BoundClause} {target : Target} {t : BoundTest}
  {ts : List BoundTest}

/-! ## Parts -/

/-- A clause is a part of itself, and of a clause that combines a clause that it is a part of. -/
inductive IsPart (b : BoundClause) : BoundClause → Prop
  | refl : IsPart b b
  | member {c : Combinator} {b' first : BoundClause} {rest : List BoundClause} :
      b' ∈ first :: rest → IsPart b b' → IsPart b (combined c first rest)

theorem IsPart.trans (h : IsPart b b') (h' : IsPart b' b'') : IsPart b b'' := by
  induction h' with
  | refl => exact h
  | member hmem _ ih => exact .member hmem ih

/-- The clauses of a filter object are parts of its clause. -/
theorem isPart_of_mem_conjunction (h : conjunction bs = some b) (hmem : b' ∈ bs) :
    IsPart b' b := by
  match bs, h with
  | [b₁], h =>
    cases h
    obtain rfl := List.mem_singleton.1 hmem
    exact .refl
  | b₁ :: b₂ :: bs, h =>
    cases h
    exact .member hmem .refl

/-- The tests in the clause of a filter object are in one of the clauses that it is made of. -/
theorem exists_mem_of_isPart_conjunction (h : conjunction bs = some b)
    (hpart : IsPart (tests target t ts) b) : ∃ b' ∈ bs, IsPart (tests target t ts) b' := by
  match bs, h with
  | [b₁], h =>
    cases h
    exact ⟨b, List.mem_singleton_self b, hpart⟩
  | b₁ :: b₂ :: bs, h =>
    cases h
    cases hpart with
    | member hmem hpart => exact ⟨_, hmem, hpart⟩

/-! ## Tests -/

theorem mem_allBindings_iff {x : Binding} : x ∈ allBindings bs ↔ ∃ b ∈ bs, x ∈ b.bindings := by
  rw [allBindings_eq_flatMap, List.mem_flatMap]

/-- Every binding of a clause belongs to some tests in it. -/
theorem exists_isPart_of_mem_bindings {x : Binding} (h : x ∈ b.bindings) :
    ∃ target t ts, IsPart (tests target t ts) b ∧ x ∈ (tests target t ts).bindings := by
  induction b using ind with
  | tests target t ts => exact ⟨target, t, ts, .refl, h⟩
  | combined c first rest ih =>
    change x ∈ allBindings (first :: rest) at h
    obtain ⟨b', hmem, h⟩ := mem_allBindings_iff.1 h
    obtain ⟨target, t, ts, hpart, hx⟩ := ih b' hmem h
    exact ⟨target, t, ts, .member hmem hpart, hx⟩

end BoundClause

end BoundSql
