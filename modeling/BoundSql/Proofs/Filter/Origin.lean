import BoundSql.Proofs.Filter.Conjuncts

/-!
# Where the tests of a clause come from

The tests in the clause of a document are those of its fields, inside and outside of its alias
blocks (`comesFromField_bound`). Everything that tests carry, such as their bindings and the
aliases of their columns, can therefore be traced back to a place in the document.
-/

namespace BoundSql

namespace Filter

open BoundClause

variable {items : Nat} {v : Value} {c : BoundClause} {target : Target} {t : BoundTest}
  {ts : List BoundTest}

/-- Some clause is that of a field that a document holds, qualified with the innermost of the blocks
that the field stands below. -/
def ComesFromField (items : Nat) (v : Value) (c : BoundClause) : Prop :=
  ∃ blocks qualifier field condition, qualifier.map Identifier.name = blocks.head? ∧
    v.HoldsEntry blocks field condition ∧ Key.ofText field = .field field ∧
    boundField items qualifier field condition = some c

/-- The clause of a field is tests of the target that the field stands for. -/
theorem exists_target_of_boundField {qualifier : Option Identifier} {field : String}
    {condition : Value} (h : boundField items qualifier field condition = some c) :
    ∃ target t ts, Target.ofField qualifier field = .ok target ∧ c = .tests target t ts := by
  rw [boundField] at h
  obtain ⟨target, htarget, h⟩ := Option.bind_eq_some_iff.1 h
  have htarget := toOption_eq_some_iff.1 htarget
  cases condition with
  | array l => cases h
  | object entries =>
    simp only [boundOperators] at h
    obtain ⟨ops, -, h⟩ := Option.bind_eq_some_iff.1 h
    split at h
    · cases h
      exact ⟨target, _, _, htarget, rfl⟩
    · cases h
    · obtain ⟨ts, -, h⟩ := Option.bind_eq_some_iff.1 h
      split at h
      · cases h
      · cases h
        exact ⟨target, _, _, htarget, rfl⟩
  | null | undefined =>
    cases h
    exact ⟨target, _, _, htarget, rfl⟩
  | _ =>
    obtain ⟨b, -, rfl⟩ := Option.map_eq_some_iff.1 h
    exact ⟨target, _, _, htarget, rfl⟩

theorem comesFromField_of_boundField {blocks : List String} {qualifier : Option Identifier}
    {field : String} {condition : Value} (hq : qualifier.map Identifier.name = blocks.head?)
    (hheld : v.HoldsEntry blocks field condition) (hkey : Key.ofText field = .field field)
    (h : boundField items qualifier field condition = some c)
    (hpart : IsPart (tests target t ts) c) : ComesFromField items v (tests target t ts) := by
  obtain ⟨target', t', ts', -, rfl⟩ := exists_target_of_boundField h
  cases hpart
  exact ⟨blocks, qualifier, field, condition, hq, hheld, hkey, h⟩

mutual

/-- **The tests in the clause of a filter** come from the fields of the document that holds the
filter. -/
theorem comesFromField_bound (qualifier : Option Identifier) (blocks : List String)
    (hq : qualifier.map Identifier.name = blocks.head?) : ∀ w : Value,
    v.HoldsFilter blocks w → ∀ c, bound items qualifier (ofValue w) = some c →
      IsPart (tests target t ts) c → ComesFromField items v (tests target t ts)
  | .object entries, h, c, hc, hpart => by
    have hentries := comesFromField_boundEntry qualifier blocks hq entries
    obtain ⟨cs, cs', hconjunction, hperm, hcs⟩ := exists_boundEntries_of_bound hc
    -- The clauses stand in another order than the entries, but each is that of an entry.
    obtain ⟨c', hc', hpart⟩ := exists_mem_of_isPart_conjunction hconjunction hpart
    obtain ⟨e, he, hentry⟩ :=
      exists_of_mem_of_forall₂ (boundEntries_eq_some_iff.1 hcs).flip (hperm.mem_iff.1 hc')
    have hmem : e ∈ entries := Value.mem_of_mem_counted he
    exact hentries e hmem ⟨entries, h, he⟩ c' hentry hpart
  | .undefined, _, _, h, _ | .null, _, _, h, _ | .bool _, _, _, h, _ | .int _, _, _, h, _
  | .bigInt _, _, _, h, _ | .float _, _, _, h, _ | .text _, _, _, h, _ | .date _, _, _, h, _
  | .bytes _, _, _, h, _ | .array _, _, _, h, _ => by cases h

theorem comesFromField_boundGiven (qualifier : Option Identifier) (blocks : List String)
    (hq : qualifier.map Identifier.name = blocks.head?) (k : Combinator) : ∀ w : Value,
    v.HoldsEntry blocks k.key w → ∀ c, boundGiven items qualifier k w = some c →
      IsPart (tests target t ts) c → ComesFromField items v (tests target t ts)
  | .array l, h, c, hc, hpart => by
    have hl := comesFromField_boundItems qualifier blocks hq l
    obtain ⟨entries, hfilter, hmem⟩ := h
    obtain ⟨first, rest, hitems, rfl⟩ := boundGiven_array hc
    cases hpart with
    | member hc' hpart =>
      obtain ⟨w, hw, hbound⟩ :=
        exists_of_mem_of_forall₂ (boundItems_eq_some_iff.1 hitems).flip hc'
      exact hl w hw (hfilter.item hmem hw) _ hbound hpart
  | .undefined, _, _, h, _ | .null, _, _, h, _ | .bool _, _, _, h, _ | .int _, _, _, h, _
  | .bigInt _, _, _, h, _ | .float _, _, _, h, _ | .text _, _, _, h, _ | .date _, _, _, h, _
  | .bytes _, _, _, h, _ | .object _, _, _, h, _ => by cases h

theorem comesFromField_boundItems (qualifier : Option Identifier) (blocks : List String)
    (hq : qualifier.map Identifier.name = blocks.head?) : ∀ (l : List Value), ∀ w ∈ l,
    v.HoldsFilter blocks w → ∀ c, bound items qualifier (ofValue w) = some c →
      IsPart (tests target t ts) c → ComesFromField items v (tests target t ts)
  | [], _, hw => nomatch hw
  | w' :: l, w, hw => by
    have hfirst := comesFromField_bound qualifier blocks hq w'
    have hl := comesFromField_boundItems qualifier blocks hq l w
    rcases List.mem_cons.1 hw with rfl | hw
    · exact hfirst
    · exact hl hw

theorem comesFromField_boundEntry (qualifier : Option Identifier) (blocks : List String)
    (hq : qualifier.map Identifier.name = blocks.head?) :
    ∀ (l : List (String × Value)), ∀ e ∈ l, v.HoldsEntry blocks e.1 e.2 → ∀ c,
      boundEntry items qualifier e.1 e.2 = some c →
        IsPart (tests target t ts) c → ComesFromField items v (tests target t ts)
  | [], _, he => nomatch he
  | (key, w) :: l, e, he => by
    have hblock := fun inner name hname =>
      comesFromField_bound (some inner) (name :: blocks) hname w
    have hgiven := fun k => comesFromField_boundGiven qualifier blocks hq k w
    have hl := comesFromField_boundEntry qualifier blocks hq l e
    rcases List.mem_cons.1 he with rfl | he
    · intro hheld c hc
      rw [boundEntry] at hc
      cases hkey : Key.ofText key with
      | combinator k =>
        rw [hkey] at hc
        obtain rfl := Key.ofText_eq_combinator_iff.1 hkey
        exact hgiven k hheld c hc
      | block name =>
        rw [hkey] at hc
        obtain rfl := Key.ofText_eq_block_iff.1 hkey
        obtain ⟨inner, hinner, hc⟩ := Option.bind_eq_some_iff.1 hc
        obtain ⟨-, hname⟩ := blockAlias_eq_ok_iff.1 (toOption_eq_some_iff.1 hinner)
        obtain ⟨entries, hfilter, hmem⟩ := hheld
        exact hblock inner name (congrArg some hname) (hfilter.block hmem) c hc
      | field name =>
        rw [hkey] at hc
        obtain rfl := Key.eq_of_ofText_eq_field hkey
        exact comesFromField_of_boundField hq hheld hkey hc
    · exact hl he

end

end Filter

end BoundSql
