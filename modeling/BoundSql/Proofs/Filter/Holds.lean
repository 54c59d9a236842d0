import BoundSql.Proofs.Filter.Entries

/-!
# What a document holds

A filter document holds other filters: the items of its combinators and the alias blocks.
`Value.HoldsFilter` says which, and below which blocks each of them stands. Their entries that count
are the entries of the document (`Value.HoldsEntry`), and what these are given are its conditions,
its operands and its scalars.

The compiler works on the parts of a filter object. `Filter.Parts.Of` says that parts are made of
the entries that count, and `Filter.of_partsOf` that those of a filter object are.
-/

namespace BoundSql

namespace Value

/-! ## Places in a document -/

/-- A document holds a filter, below the blocks of some aliases, the innermost first: itself, the
items of the combinators of a filter object that it holds, and the alias blocks of one. -/
inductive HoldsFilter (v : Value) : List String → Value → Prop
  | root : HoldsFilter v [] v
  | item {blocks : List String} {entries : List (String × Value)} {c : Combinator}
      {l : List Value} {w : Value} : HoldsFilter v blocks (.object entries) →
      (c.key, .array l) ∈ counted entries → w ∈ l → HoldsFilter v blocks w
  | block {blocks : List String} {entries : List (String × Value)} {name : String} {w : Value} :
      HoldsFilter v blocks (.object entries) → ("$" ++ name, w) ∈ counted entries →
      HoldsFilter v (name :: blocks) w

/-- A document holds an entry that counts, below some blocks. -/
def HoldsEntry (v : Value) (blocks : List String) (key : String) (w : Value) : Prop :=
  ∃ entries, v.HoldsFilter blocks (.object entries) ∧ (key, w) ∈ counted entries

/-- A document holds a field under a condition. -/
def HoldsField (v : Value) (field : String) (condition : Value) : Prop :=
  Key.ofText field = .field field ∧ ∃ blocks, v.HoldsEntry blocks field condition

/-- A document holds an operator with an operand, which may be undefined. -/
def HoldsOperand (v : Value) (op : Operator) (operand : Value) : Prop :=
  ∃ field entries, v.HoldsField field (.object entries) ∧ (op.name, operand) ∈ entries

/-- A document holds a value where a scalar is wanted: as the condition of a field, as the operand
of a comparison, or as an item of a list to compare with. -/
inductive HoldsScalar (v : Value) : Value → Prop
  | condition {field : String} {w : Value} : v.HoldsField field w → w.shape ≠ .array →
      w.shape ≠ .object → HoldsScalar v w
  | operand {op : Operator} {w : Value} :
      op ∈ [.greater, .atLeast, .less, .atMost, .notEqual] → v.HoldsOperand op w → HoldsScalar v w
  | item {op : Operator} {l : List Value} {w : Value} : op ∈ [.oneOf, .noneOf] →
      v.HoldsOperand op (.array l) → w ∈ l → HoldsScalar v w

end Value

/-! ## Parts and entries -/

namespace Filter

/-- Parts of a filter object that are made of some entries. -/
structure Parts.Of (p : Parts) (entries : List (String × Value)) : Prop where
  combination : ∀ c, p.combination c = .absent ∨
    ∃ v, (c.key, v) ∈ entries ∧ p.combination c = combinationOf v
  field : ∀ e ∈ p.fields, e ∈ entries ∧ Key.ofText e.1 = .field e.1
  block : ∀ b ∈ p.blocks, ∃ v, ("$" ++ b.1, v) ∈ entries ∧ b.2 = ofValue v
  /-- Where there are no parts there are no entries. -/
  nothing : (∀ c, p.combination c = .absent) → p.fields = [] → p.blocks = [] → entries = []

@[simp] theorem Parts.combination_giving_self (p : Parts) (c : Combinator)
    (given : Combination Filter) : (p.giving c given).combination c = given := by
  cases c <;> rfl

theorem Parts.combination_giving_of_ne (p : Parts) {c c' : Combinator} (h : c' ≠ c)
    (given : Combination Filter) : (p.giving c given).combination c' = p.combination c' := by
  cases c <;> cases c' <;> first | rfl | exact absurd rfl h

@[simp] theorem Parts.fields_giving (p : Parts) (c : Combinator) (given : Combination Filter) :
    (p.giving c given).fields = p.fields := by
  cases c <;> rfl

@[simp] theorem Parts.blocks_giving (p : Parts) (c : Combinator) (given : Combination Filter) :
    (p.giving c given).blocks = p.blocks := by
  cases c <;> rfl

/-- An entry that is added to parts is added to the entries that they are made of. -/
theorem Parts.Of.adds {key : String} {v : Value} {entries : List (String × Value)} {p p' : Parts}
    (h : p.Of entries) (hadds : Parts.Adds key v p p') : p'.Of ((key, v) :: entries) := by
  have hcombination : ∀ c, p.combination c = .absent ∨
      ∃ w, (c.key, w) ∈ (key, v) :: entries ∧ p.combination c = combinationOf w := fun c =>
    (h.combination c).imp_right fun ⟨w, hw, heq⟩ => ⟨w, List.mem_cons_of_mem _ hw, heq⟩
  have hfield : ∀ e ∈ p.fields, e ∈ (key, v) :: entries ∧ Key.ofText e.1 = .field e.1 :=
    fun e he => (h.field e he).imp_left (List.mem_cons_of_mem _)
  have hblock : ∀ b ∈ p.blocks, ∃ w, ("$" ++ b.1, w) ∈ (key, v) :: entries ∧ b.2 = ofValue w :=
    fun b hb => (h.block b hb).imp fun w hw => hw.imp_left (List.mem_cons_of_mem _)
  cases hadds with
  | combinator c hkey habsent =>
    obtain rfl := Key.ofText_eq_combinator_iff.1 hkey
    refine ⟨fun c' => ?_, ?_, ?_, fun habsent' => ?_⟩
    · by_cases hc : c' = c
      · subst hc
        rw [p.combination_giving_self]
        exact .inr ⟨v, List.mem_cons_self, rfl⟩
      · rw [p.combination_giving_of_ne hc]
        exact hcombination c'
    · rwa [p.fields_giving]
    · rwa [p.blocks_giving]
    · have hgiven := habsent' c
      rw [p.combination_giving_self] at hgiven
      exact absurd hgiven (combinationOf_ne_absent v)
  | block name hkey hobject =>
    obtain rfl := Key.ofText_eq_block_iff.1 hkey
    refine ⟨hcombination, hfield, ?_, nofun⟩
    rw [List.forall_mem_cons]
    exact ⟨⟨v, List.mem_cons_self, rfl⟩, hblock⟩
  | field hkey =>
    refine ⟨hcombination, ?_, hblock, nofun⟩
    rw [List.forall_mem_cons]
    exact ⟨⟨List.mem_cons_self, hkey⟩, hfield⟩

/-- The parts of a filter object are made of its entries that count. -/
theorem of_partsOf (entries : List (String × Value)) :
    (partsOf entries).Of (Value.counted entries) := by
  induction entries with
  | nil =>
    refine ⟨fun c => .inl ?_, nofun, nofun, fun _ _ _ => rfl⟩
    cases c <;> rfl
  | cons e l ih =>
    obtain ⟨key, v⟩ := e
    rw [Value.counted]
    cases h : Value.counts key v l with
    | false =>
      rw [partsOf_cons_of_not_counts h]
      exact ih
    | true => exact ih.adds (partsOf_cons_of_counts h)

end Filter

end BoundSql
