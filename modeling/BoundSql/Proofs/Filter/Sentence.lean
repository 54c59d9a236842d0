import BoundSql.Proofs.Filter.Block
import BoundSql.Proofs.Filter.Origin
import BoundSql.Proofs.Sql.Reserved

/-!
# When the text of a filter is a sentence

The aliases of a document stand in the text without quotes, so one that is called like a reserved
word is taken for that word. The aliases in the text of a document are those of its alias blocks, no
more and no less (`Filter.mem_qualifiers_iff`). So the text is a sentence of SQL exactly when no
alias block of the document is called like a reserved word (`compile_isSentence_iff`).
-/

namespace BoundSql

open Sql

/-! ## The aliases of a clause -/

namespace BoundClause

variable {b : BoundClause} {q : String}

theorem mem_qualifiers_tests_iff {target : Target} {t : BoundTest} {ts : List BoundTest} :
    q ∈ (tests target t ts).expr.qualifiers ↔ target.qualifier.map Identifier.name = some q := by
  have hatom : ∀ t, q ∈ (Expr.atom ⟨target.subject, t⟩).qualifiers ↔
      target.qualifier.map Identifier.name = some q := fun _ => Option.mem_toList
  rw [expr, Expr.qualifiers, Expr.qualifiers_join, List.flatMap_cons, List.mem_append, hatom,
    List.flatMap_map, List.mem_flatMap]
  constructor
  · rintro (h | ⟨t', -, h⟩)
    · exact h
    · exact (hatom t').1 h
  · exact .inl

/-- The aliases of a clause are those of its tests. -/
theorem mem_qualifiers_iff : q ∈ b.expr.qualifiers ↔
    ∃ target t ts, IsPart (tests target t ts) b ∧
      target.qualifier.map Identifier.name = some q := by
  have hcombined : ∀ c first rest, q ∈ (combined c first rest).expr.qualifiers ↔
      ∃ b ∈ first :: rest, q ∈ b.expr.qualifiers := by
    intro c first rest
    rw [expr, Expr.qualifiers, Expr.qualifiers_join, exprs_eq_map, ← List.map_cons,
      List.flatMap_map, List.mem_flatMap]
  constructor
  · intro h
    induction b using ind with
    | tests target t ts => exact ⟨target, t, ts, .refl, mem_qualifiers_tests_iff.1 h⟩
    | combined c first rest ih =>
      obtain ⟨b', hmem, h⟩ := (hcombined c first rest).1 h
      obtain ⟨target, t, ts, hpart, hq⟩ := ih b' hmem h
      exact ⟨target, t, ts, .member hmem hpart, hq⟩
  · rintro ⟨target, t, ts, hpart, hq⟩
    induction hpart with
    | refl => exact mem_qualifiers_tests_iff.2 hq
    | @member c b' first rest hmem _ ih => exact (hcombined c first rest).2 ⟨b', hmem, ih⟩

/-- A clause inside the block of an alias has the alias in it, however it is put together. -/
theorem mem_qualifiers_within (i : Identifier) (b : BoundClause) :
    i.name ∈ (b.within (some i)).expr.qualifiers := by
  rw [mem_qualifiers_iff]
  induction b using ind with
  | tests target t ts => exact ⟨target.within (some i), t, ts, .refl, rfl⟩
  | combined c first rest ih =>
    obtain ⟨target, t, ts, hpart, hq⟩ := ih first List.mem_cons_self
    exact ⟨target, t, ts, .member List.mem_cons_self hpart, hq⟩

end BoundClause

/-! ## The aliases of a filter -/

namespace Filter

open BoundClause

variable {items : Nat} {v : Value} {b : BoundClause} {q : String}

/-- **The aliases in the clause of a document** are those of its alias blocks. -/
theorem mem_qualifiers_iff (hb : bound items none (ofValue v) = some b) :
    q ∈ b.expr.qualifiers ↔ ∃ blocks w, v.HoldsFilter (q :: blocks) w := by
  constructor
  · intro h
    obtain ⟨target, t, ts, hpart, hq⟩ := BoundClause.mem_qualifiers_iff.1 h
    obtain ⟨blocks, qualifier, field, condition, hblocks, ⟨entries, hheld, -⟩, -, hfield⟩ :=
      comesFromField_bound none [] rfl v .root b hb hpart
    obtain ⟨target', t', ts', htarget, heq⟩ := exists_target_of_boundField hfield
    cases heq
    rw [← (Target.ofField_eq_ok_iff.1 htarget).2.1, hq] at hblocks
    obtain ⟨blocks, rfl⟩ := List.head?_eq_some_iff.1 hblocks.symm
    exact ⟨blocks, _, hheld⟩
  · rintro ⟨blocks, w, hheld⟩
    obtain ⟨qualifier, b', hname, hb', hpart⟩ := exists_bound_part hb hheld
    obtain ⟨i, rfl, rfl⟩ := Option.map_eq_some_iff.1 hname
    -- There is no block inside the block, so the alias qualifies all that stands in it.
    have hnone : ¬ w.HoldsBlock := fun h => by
      rw [bound_eq_none_of_holdsBlock h] at hb'
      cases hb'
    rw [bound_within_of_not_holdsBlock (some i) hnone] at hb'
    obtain ⟨b₀, -, rfl⟩ := Option.map_eq_some_iff.1 hb'
    obtain ⟨target, t, ts, hpart', hq⟩ :=
      BoundClause.mem_qualifiers_iff.1 (mem_qualifiers_within i b₀)
    exact BoundClause.mem_qualifiers_iff.2 ⟨target, t, ts, hpart'.trans hpart, hq⟩

end Filter

/-- **When the text of a filter is a sentence.** A document that compiles has a text that reads as
an expression, and the aliases in it are those of the alias blocks of the document. With reserved
words, the text is a sentence exactly when no alias block is called like one of them. -/
theorem compile_isSentence_iff {limits : Limits} {v : Value} {f : Fragment}
    (h : compile limits v = .ok f) :
    (∃ e, f.ReadsAs e ∧ ∀ q, q ∈ e.qualifiers ↔ ∃ blocks w, v.HoldsFilter (q :: blocks) w) ∧
      (f.IsSentence ↔
        ∀ name blocks w, v.HoldsFilter (name :: blocks) w → isReserved name = false) := by
  obtain ⟨b, hb, -, -, rfl⟩ := compile_eq_ok_iff.1 h
  have hqualifiers : ∀ q, q ∈ (Expr.group b.expr).qualifiers ↔
      ∃ blocks w, v.HoldsFilter (q :: blocks) w := fun q => Filter.mem_qualifiers_iff hb
  refine ⟨⟨_, b.readsAs_expr, hqualifiers⟩, ?_⟩
  simp only [b.readsAs_expr.isSentence_iff, hqualifiers, forall_exists_index]

/-- An alias that only begins like a reserved word, and a column that is called like one. -/
theorem compile_isSentence_of_free_alias :
    ∃ f, compile {} (.object [("$ORs", .object [("OR", .null)])]) = .ok f ∧
      f.text = "((ORs.\"OR\" IS NULL))" ∧ f.IsSentence := by
  have h : compile {} (.object [("$ORs", .object [("OR", .null)])]) =
      .ok { text := "((ORs.\"OR\" IS NULL))", bindings := [] } := rfl
  have hreads : Fragment.ReadsAs { text := "((ORs.\"OR\" IS NULL))", bindings := [] }
      (.group (.group (.atom ⟨⟨some "ORs", "OR", none⟩, ⟨.isNull, [], rfl⟩⟩))) :=
    ⟨trivial, by decide +kernel⟩
  obtain ⟨⟨e, hreads', hqualifiers⟩, hiff⟩ := compile_isSentence_iff h
  obtain rfl := hreads'.unique hreads
  refine ⟨_, h, rfl, hiff.2 fun name blocks w hheld => ?_⟩
  obtain rfl : name = "ORs" := List.mem_singleton.1 ((hqualifiers name).2 ⟨blocks, w, hheld⟩)
  decide +kernel

/-- An alias that is called like a connective: what it compiles to is no sentence. -/
theorem reserved_alias_is_no_sentence :
    ∃ f, compile {} (.object [("$AND", .object [("a", .int 1)])]) = .ok f ∧
      f.text = "((AND.\"a\" = ?))" ∧ isReserved "AND" = true ∧ ¬ f.IsSentence := by
  have hreads : Fragment.ReadsAs { text := "((AND.\"a\" = ?))", bindings := [.integer 1] }
      (.group (.group (.atom ⟨⟨some "AND", "a", none⟩, ⟨.equal, [.integer 1], rfl⟩⟩))) :=
    ⟨trivial, by decide +kernel⟩
  have hreserved : isReserved "AND" = true := by decide +kernel
  refine ⟨_, rfl, rfl, hreserved, fun hsentence => ?_⟩
  have hfree := hreads.isSentence_iff.1 hsentence "AND" (List.mem_singleton_self _)
  rw [hreserved] at hfree
  cases hfree

end BoundSql
