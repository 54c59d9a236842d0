import BoundSql.Proofs.Compilation.Word
import BoundSql.Proofs.Filter.Composed
import BoundSql.Proofs.Fragment.Placeholders
import BoundSql.Proofs.Limits.Document

/-!
# The frame of compiling a filter

A filter object inside another one is compiled in the middle of a compilation: some levels are
entered, some operators are counted and some bindings are collected. What is known of compiling it
from any such state is its frame (`Filter.compile_frame`). The state is that of the program, whose
operators are counted in a word: that the count does not become smaller needs room in the word, and
nothing else does.

What the state is afterwards, and that it does not matter where a filter is compiled, is true of
every step that is composed like the compiler; the rest is read off the clause that the filter asks
for. That the compiler may count with numbers in place of words is `Filter.compile_start_exact`.
-/

namespace BoundSql

open CompileM

namespace Filter

variable {M N : Type} [Counter M] [Counter N] {qualifier : Option Identifier} {f : Filter}
  {c c' : Compilation M} {clause : Clause}

/-- What is compiled somewhere is compiled from the beginning, too, if that may go as deep, may use
as long lists and may count all operators of the filter. -/
theorem compile_start_of_ok (h : compile qualifier f c = .ok clause c') (limits : Limits)
    (hlevels : c.limits.nestingDepth ≤ limits.nestingDepth)
    (hitems : c.limits.listItems ≤ limits.listItems) (hoperators : f.operators ≤ limits.operators) :
    ∃ n bs, c' = c.after n bs ∧ compile qualifier f ({ limits } : Compilation) =
      .ok clause (Compilation.after { limits } n bs) := by
  have hleft : ({ limits } : Compilation).operators + f.operators ≤ limits.operators :=
    Nat.le_trans (Nat.le_of_eq (Nat.zero_add _)) hoperators
  obtain ⟨n, -, bs, hc, hstart⟩ :=
    (composed_compile qualifier f).ok_of_le h (Nat.zero_le _) hlevels hitems hleft
  exact ⟨n, bs, hc, hstart⟩

/-- What is compiled somewhere is the clause that the filter asks for. -/
theorem exists_bound_of_ok (h : compile qualifier f c = .ok clause c') :
    ∃ n, ∃ b : BoundClause, c' = c.after n b.bindings ∧ clause = b.clause := by
  let limits := { c.limits with operators := f.operators }
  obtain ⟨n, bs, hc, hstart⟩ :=
    compile_start_of_ok h limits (Nat.le_refl _) (Nat.le_refl _) (Nat.le_refl _)
  have hyields := yields_compile limits.listItems qualifier f { limits } rfl
    (Compilation.within_start limits)
  obtain ⟨bs', hyield, -, -, hafter⟩ := (hyields _ _).1 hstart
  obtain ⟨b, -, heq⟩ := Option.map_eq_some_iff.1 hyield
  cases heq
  have hbs : bs = b.bindings := congrArg Compilation.bindings hafter
  exact ⟨n, b, hbs ▸ hc, rfl⟩

/-- What is compiled from two states is the same, whatever their limits are and whatever their
operators are counted with. -/
theorem compile_agree {k k' : Compilation N} {clause' : Clause}
    (h : compile qualifier f c = .ok clause c') (hk : compile qualifier f k = .ok clause' k') :
    clause' = clause ∧ ∃ n bs, c' = c.after n bs ∧ k' = k.after n bs := by
  -- Both are compiled from the beginning under limits that leave each of them enough.
  obtain ⟨relaxed, hc, hk'⟩ := c.limits.exists_relaxed k.limits
  let limits := { relaxed with operators := f.operators }
  obtain ⟨n, bs, hcn, hstart⟩ := compile_start_of_ok h limits hc.nestingDepth_le hc.listItems_le
    (Nat.le_refl _)
  obtain ⟨n', bs', hkn, hstart'⟩ := compile_start_of_ok hk limits hk'.nestingDepth_le
    hk'.listItems_le (Nat.le_refl _)
  rw [hstart, EStateM.Result.ok.injEq] at hstart'
  obtain ⟨rfl, hafter⟩ := hstart'
  have hn : 0 + n = 0 + n' := congrArg Compilation.operators hafter
  have hbs : bs = bs' := congrArg Compilation.bindings hafter
  rw [Nat.zero_add, Nat.zero_add] at hn
  subst hn hbs
  exact ⟨rfl, n, bs, hcn, hkn⟩

/-- **The frame of compiling a filter.** From whatever state a filter is compiled, and whether it
fails or not, it comes back to its depth, has counted no more operators than the filter has, and
has lost no bindings; the count is no smaller than before if the word has room for it. If it
succeeds, it has kept to the limit on operators where that was kept before; its text stands between
two parentheses that are each other's; it has collected one binding for each question mark of the
text; and from whatever other state it succeeds, it has the same text and collects the same
bindings. -/
theorem compile_frame (qualifier : Option Identifier) (f : Filter) (c : Compilation UInt64) :
    c.Extends (leftBy (compile qualifier f c)) f.operators ∧
      (c.HasRoom f.operators → c.operators ≤ (leftBy (compile qualifier f c)).operators) ∧
      ∀ clause c', compile qualifier f c = .ok clause c' →
        (c.operators.toNat ≤ c.limits.operators → c'.operators.toNat ≤ c.limits.operators) ∧
        (∃ inner, clause.text.toList = '(' :: inner ++ [')'] ∧
          ∀ p, p <+: clause.text.toList →
            0 ≤ nesting p ∧ (nesting p = 0 ↔ p = [] ∨ p = clause.text.toList)) ∧
        ∃ bs, c'.bindings = c.bindings ++ bs ∧ clause.text.toList.count '?' = bs.length ∧
          ∀ (k : Compilation UInt64) clause' k', compile qualifier f k = .ok clause' k' →
            clause'.text = clause.text ∧ k'.bindings = k.bindings ++ bs := by
  have hcomposed := composed_compile (M := UInt64) (N := Nat) qualifier f
  refine ⟨hcomposed.extends_leftBy c, hcomposed.operators_le_leftBy,
    fun clause c' h => ⟨fun hc => ?_, clause.nesting_text, ?_⟩⟩
  · rcases hcomposed.operators_of_ok h with hnone | hkept
    · rwa [hnone]
    · exact hkept
  · obtain ⟨n, b, rfl, rfl⟩ := exists_bound_of_ok h
    refine ⟨b.bindings, rfl, b.count_text, fun k clause' k' hk => ?_⟩
    obtain ⟨rfl, n', bs, hc, rfl⟩ := compile_agree h hk
    have hbs : b.bindings = bs := List.append_cancel_left (congrArg Compilation.bindings hc)
    rw [hbs]
    exact ⟨rfl, rfl⟩

/-- A place of an alias, compiled on the last level with the last operator, and compiled again from
the beginning. -/
theorem compile_frame_of_place :
    let f := ofValue (.object [("a.b", .object [("gt", .int 1)])])
    let c : Compilation UInt64 :=
      { limits := {}, depth := 9, operators := 99, bindings := [.null] }
    let k : Compilation UInt64 := { limits := { nestingDepth := 1, operators := 1 } }
    c.HasRoom f.operators ∧ ∃ clause c' k', compile (some ⟨"t", rfl⟩) f c = .ok clause c' ∧
      compile (some ⟨"t", rfl⟩) f k = .ok clause k' ∧
      clause.text = "(json_extract(t.\"a\", ?) > ?)" ∧
      99 ≤ c'.operators ∧ c'.operators.toNat ≤ 100 ∧
      c'.bindings = [.null, .text "$.b", .integer 1] ∧
      k'.bindings = [.text "$.b", .integer 1] := by
  intro f c k
  have h : compile (some ⟨"t", rfl⟩) f c = .ok _ _ := rfl
  have hk : compile (some ⟨"t", rfl⟩) f k = .ok _ _ := rfl
  have hroom : c.HasRoom f.operators := .inl (by decide)
  obtain ⟨-, hcount, hframe⟩ := compile_frame (some ⟨"t", rfl⟩) f c
  obtain ⟨hoperators, -, bs, hbs, -, hagain⟩ := hframe _ _ h
  obtain ⟨-, hbs'⟩ := hagain _ _ _ hk
  have hcollected : [.null] ++ [.text "$.b", .integer 1] = [.null] ++ bs := hbs
  rw [← List.append_cancel_left hcollected] at hbs'
  have hle := hcount hroom
  rw [h] at hle
  exact ⟨hroom, _, _, _, h, hk, by decide, hle, hoperators (by decide), rfl, hbs'⟩

/-- Without room the count begins again at zero. -/
example :
    let c : Compilation UInt64 :=
      { limits := { operators := UInt64.size }, operators := 18446744073709551615 }
    (leftBy (compile none (ofValue (.object [("a", .object [("gt", .int 1)])])) c)).operators =
      0 := rfl

/-- **Numbers in place of words.** From the beginning a filter is compiled with numbers as it is
with words, unless it has more operators than there are words and the limit lets them be counted. -/
theorem compile_start_exact (qualifier : Option Identifier) (f : Filter) (limits : Limits)
    (hroom : f.operators < UInt64.size ∨ limits.operators + 1 < UInt64.size) :
    compile qualifier f ({ limits } : Compilation) =
      exactly (compile qualifier f ({ limits } : Compilation UInt64)) := by
  refine (composed_compile qualifier f).run_exact (c := { limits }) ?_
  simpa [Compilation.HasRoom] using hroom

/-- Under limits that a limits document sets, every filter is compiled with numbers as it is with
words. -/
theorem compile_start_exact_of_document (qualifier : Option Identifier) (f : Filter) {text : String}
    {limits : Limits} (h : Limits.ofDocument text = .ok limits) :
    compile qualifier f ({ limits } : Compilation) =
      exactly (compile qualifier f ({ limits } : Compilation UInt64)) := by
  have hlt : limits.operators < 2 ^ 63 := Limits.get_lt_of_ofDocument h .operators
  have hsize : UInt64.size = 2 ^ 64 := rfl
  exact compile_start_exact qualifier f limits (.inr (by omega))

end Filter

end BoundSql
