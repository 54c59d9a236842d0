import BoundSql.Proofs.Filter.Bound
import BoundSql.Proofs.Filter.Entries

/-!
# What compiling a filter yields

The compiler counts levels and operators and collects bindings on its way. `Filter.depth` and
`Filter.operators` measure a filter, and `Filter.yields_compile` says that compiling it yields its
bound clause at the price of these measures. So the compiler succeeds exactly when the filter asks
for a clause and both measures are within the limits (`compile_eq_ok_iff`).
-/

namespace BoundSql

open CompileM

/-! ## The measures of a filter -/

namespace Filter

mutual

/-- How deep filter objects stand inside each other. -/
def depth : Filter → Nat
  | .notObject _ => 0
  | .object conj disj _ blocks =>
    max (depthCombination conj) (max (depthCombination disj) (depthBlocks blocks)) + 1

/-- The depth of what a combinator was given. -/
def depthCombination : Combination Filter → Nat
  | .items l => depthItems l
  | _ => 0

/-- The greatest depth of some filters. -/
def depthItems : List Filter → Nat
  | [] => 0
  | f :: l => max f.depth (depthItems l)

/-- The greatest depth of some alias blocks. -/
def depthBlocks : List (String × Filter) → Nat
  | [] => 0
  | (_, f) :: l => max f.depth (depthBlocks l)

end

/-- The number of operators that the conditions of some fields use up. -/
def operatorsFields : List (String × Value) → Nat
  | [] => 0
  | (_, condition) :: l => Operator.used condition + operatorsFields l

mutual

/-- The number of combinators and operators that a filter uses up. -/
def operators : Filter → Nat
  | .notObject _ => 0
  | .object conj disj fields blocks =>
    operatorsCombination conj + (operatorsCombination disj +
      (operatorsFields fields + operatorsBlocks blocks))

/-- The number of operators in what a combinator was given, itself included. -/
def operatorsCombination : Combination Filter → Nat
  | .items l => operatorsItems l + 1
  | _ => 0

/-- The number of operators that some filters use up. -/
def operatorsItems : List Filter → Nat
  | [] => 0
  | f :: l => f.operators + operatorsItems l

/-- The number of operators that some alias blocks use up. -/
def operatorsBlocks : List (String × Filter) → Nat
  | [] => 0
  | (_, f) :: l => f.operators + operatorsBlocks l

end

end Filter

/-! ## The yields of operators -/

theorem yields_emit (items : Nat) (target : Target) (test : Test) (operands : List Binding) :
    Yields items (target.emit test operands) (some (test, target.bindings ++ operands)) 0 0 :=
  ((yields_addBindings _).bind fun _ => yields_pure test).cast (by simp) rfl rfl

/-- What a test of a target gives and collects. -/
def BoundTest.yield (target : Target) (t : BoundTest) : Test × List Binding :=
  (t.test, target.bindings ++ t.operands)

namespace Operator

variable (items : Nat) (target : Target)

theorem yields_compileScalar (operand : Value) (test : Test) (takes : ∀ b, test.Takes [b]) :
    Yields items (compileScalar target operand test)
      ((operand.bind.toOption.map (BoundTest.one test takes)).map (BoundTest.yield target))
      0 1 := by
  refine ((yields_ofExcept operand.bind).bind fun b =>
    yields_countOperator.bind fun _ => yields_emit items target test [b]).cast ?_ rfl rfl
  cases operand.bind.toOption <;> simp [BoundTest.one, BoundTest.yield]

theorem yields_compileNotEqual (operand : Value) :
    Yields items (compileNotEqual target operand)
      ((ask items notEqual operand).map (BoundTest.yield target)) 0 1 := by
  unfold compileNotEqual ask
  by_cases h : operand.isNullish = true
  · simp only [h, if_true]
    exact (yields_countOperator.bind fun _ => yields_emit items target .isNotNull []).cast rfl
      rfl rfl
  · simp only [h]
    refine (yields_countOperator.bind fun _ => (yields_ofExcept operand.bind).bind fun b =>
      yields_emit items target .notEqual [b]).cast ?_ rfl rfl
    cases operand.bind.toOption <;> simp [BoundTest.one, BoundTest.yield]

/-- The list of placeholders for a list of operands keeps the operands. -/
theorem bindings_ofList (op : Operator) (l : List Value) (max : Nat) :
    (Fragment.ofList op l max).toOption.map Fragment.bindings =
      if l = [] ∨ max < l.length then none else (Value.bindAll l).toOption := by
  unfold Fragment.ofList
  by_cases hl : l = []
  · subst hl
    rfl
  · rw [if_neg (by simpa using hl)]
    by_cases hm : max < l.length
    · rw [if_pos hm, if_pos (Or.inr hm)]
      rfl
    · rw [if_neg hm, if_neg (not_or.2 ⟨hl, hm⟩)]
      cases Value.bindAll l with
      | error e => rfl
      | ok bs =>
        change some ((bs.map Fragment.ofBinding).flatMap Fragment.bindings) = some bs
        rw [List.flatMap_map]
        simp [Fragment.ofBinding]

theorem length_of_bindAll {l : List Value} {bs : List Binding} (h : Value.bindAll l = .ok bs) :
    bs.length = l.length :=
  (Value.bindAll_eq_ok_iff.1 h).length_eq.symm

theorem map_yield_askList (test : Nat → Test)
    (takes : ∀ b bs, (test (List.length (b :: bs))).Takes (b :: bs)) (l : List Value) :
    (askList items test takes (.array l)).map (BoundTest.yield target) =
      (if l = [] ∨ items < l.length then none else (Value.bindAll l).toOption).map
        fun bs => (test l.length, target.bindings ++ bs) := by
  rw [askList]
  by_cases hmax : items < l.length
  · simp [hmax]
  · rw [if_neg hmax]
    cases hb : Value.bindAll l with
    | error e => simp [Except.toOption]
    | ok bs =>
      have hlen := length_of_bindAll hb
      cases bs with
      | nil =>
        obtain rfl := List.length_eq_zero_iff.1 hlen.symm
        simp [Except.toOption]
      | cons b bs =>
        have hl : l ≠ [] := fun h => by
          subst h
          cases hlen
        rw [if_neg (not_or.2 ⟨hl, hmax⟩)]
        simp [Except.toOption, BoundTest.yield, ← hlen]

theorem yields_compileList (op : Operator) (operand : Value) (test : Nat → Test)
    (takes : ∀ b bs, (test (List.length (b :: bs))).Takes (b :: bs)) :
    Yields items (compileList target op operand test)
      ((askList items test takes operand).map (BoundTest.yield target)) 0 1 := by
  cases operand with
  | array l =>
    intro c hitems
    subst hitems
    refine ((yields_ofExcept (Fragment.ofList op l c.limits.listItems)).bind fun list =>
      yields_countOperator.bind fun _ =>
        yields_emit c.limits.listItems target (test l.length) list.bindings).cast ?_ rfl rfl c rfl
    rw [map_yield_askList, ← bindings_ofList op]
    cases (Fragment.ofList op l c.limits.listItems).toOption <;> rfl
  | _ => exact yields_throw _ 0 1

theorem yields_compilePattern (op : Operator) (operand : Value) (test : Test)
    (takes : ∀ b, test.Takes [b]) :
    Yields items (compilePattern target op operand test)
      ((askPattern test takes operand).map (BoundTest.yield target)) 0 1 := by
  cases operand with
  | text pattern =>
    exact (yields_countOperator.bind fun _ =>
      yields_emit items target test [.text pattern]).cast rfl rfl rfl
  | _ => exact yields_throw _ 0 1

/-- What an operator is compiled to: nothing where it asks nothing, and else the test that it asks
for, at the price of one operator. -/
theorem yields_compile (op : Operator) (operand : Value) :
    Yields items (op.compile target operand)
      (if op.skips operand then some (none, [])
        else (op.ask items operand).map fun t => (some t.test, target.bindings ++ t.operands))
      0 (if op.skips operand then 0 else 1) := by
  have hsome : ∀ {m : CompileM Test} {r : Option BoundTest},
      Yields items m (r.map (BoundTest.yield target)) 0 1 →
        Yields items (some <$> m)
          (r.map fun t => (some t.test, target.bindings ++ t.operands)) 0 1 := by
    intro m r h
    exact h.map.cast (Option.map_map ..) rfl rfl
  cases hs : op.skips operand with
  | true =>
    rw [compile_of_skips hs]
    exact yields_pure none
  | false =>
    unfold Operator.compile
    rw [if_neg (not_undefined_of_not_skips hs)]
    cases op with
    | greater => exact hsome (yields_compileScalar items target operand .greater fun _ => rfl)
    | atLeast => exact hsome (yields_compileScalar items target operand .atLeast fun _ => rfl)
    | less => exact hsome (yields_compileScalar items target operand .less fun _ => rfl)
    | atMost => exact hsome (yields_compileScalar items target operand .atMost fun _ => rfl)
    | notEqual => exact hsome (yields_compileNotEqual items target operand)
    | oneOf => exact hsome (yields_compileList items target oneOf operand .oneOf _)
    | noneOf => exact hsome (yields_compileList items target noneOf operand .noneOf _)
    | like => exact hsome (yields_compilePattern items target like operand .like _)
    | likeNoCase =>
      exact hsome (yields_compilePattern items target likeNoCase operand .likeNoCase _)
    | regex => exact hsome (yields_compilePattern items target regex operand .regex _)
    | present => cases hs

/-- What some operators are compiled to. Those that ask nothing cost nothing. -/
theorem yields_compileAll (ops : List (Operator × Value)) :
    Yields items (compileAll target ops)
      ((askAll items ops).map fun ts =>
        (ts.map BoundTest.test, ts.flatMap fun t => target.bindings ++ t.operands))
      0 (ops.countP fun p => !p.1.skips p.2) := by
  induction ops with
  | nil => exact yields_pure []
  | cons p ops ih =>
    obtain ⟨op, operand⟩ := p
    refine ((yields_compile items target op operand).bind fun t =>
      ih.bind fun ts => yields_pure (t.toList ++ ts)).cast ?_ rfl ?_
    · cases hs : op.skips operand with
      | true => cases h : askAll items ops <;> simp [askAll, hs, h]
      | false =>
        cases h : askAll items ops <;> cases h' : op.ask items operand <;>
          simp [askAll, hs, h, h']
    · cases hs : op.skips operand <;> simp [hs, Nat.add_comm]

end Operator

/-! ## The yields of filters -/

/-- What compiling to a bound clause gives and collects. -/
def BoundClause.yield (b : BoundClause) : Clause × List Binding :=
  (b.clause, b.bindings)

/-- What compiling to some bound clauses gives and collects. -/
def BoundClause.yieldAll (bs : List BoundClause) : List Clause × List Binding :=
  (clauses bs, allBindings bs)

namespace Filter

variable (items : Nat) (qualifier : Option Identifier)

theorem yields_tests (field : String) (target : Target) (ts : List Test) :
    Yields items (if ts.isEmpty then throw (.emptyOperators field) else pure (.tests target ts))
      (if ts.isEmpty then none else some (Clause.tests target ts, [])) 0 0 := by
  cases ts with
  | nil => exact yields_throw _ 0 0
  | cons t ts => exact yields_pure _

theorem used_entriesOf (ops : List (Operator × Value)) :
    Operator.used (.object (Operator.entriesOf ops)) =
      if (Operator.presence? ops).isSome then 1 else ops.countP fun p => !p.1.skips p.2 := by
  rw [Operator.used, Operator.firstPresence_entriesOf, Operator.entriesOf, List.countP_map]
  congr 2
  funext p
  simp [Operator.asked_name, Operator.skips]

theorem yields_compileOperators (field : String) (target : Target)
    (entries : List (String × Value)) :
    Yields items (compileOperators field target entries)
      ((boundOperators items target entries).map BoundClause.yield) 0
      (Operator.used (.object entries)) := by
  unfold compileOperators boundOperators
  cases hops : Operator.ofEntries entries with
  | error e => exact yields_throw e 0 _
  | ok ops =>
    obtain rfl := Operator.ofEntries_eq_ok_iff.1 hops
    rw [used_entriesOf]
    simp only [ofExcept_ok, pure_bind, Except.toOption, Option.bind_eq_bind, Option.bind_some]
    cases Operator.presence? ops with
    | none =>
      refine ((Operator.yields_compileAll items target ops).bind
        (yields_tests items field target)).cast ?_ rfl rfl
      cases Operator.askAll items ops with
      | none => rfl
      | some ts =>
        cases ts with
        | nil => rfl
        | cons t ts => simp [BoundClause.yield, BoundClause.clause, BoundClause.bindings]
    | some v =>
      cases v with
      | bool b =>
        refine (yields_countOperator.bind fun _ => (yields_emit items target _ []).bind fun t =>
          yields_pure (Clause.tests target [t])).cast ?_ rfl rfl
        cases b <;> simp [BoundClause.yield, BoundClause.clause, BoundClause.bindings,
          Operator.presenceTest]
      | _ => exact yields_throw _ 0 1

/-- What a condition that is a scalar is compiled to. -/
theorem yields_equal (target : Target) (v : Value) :
    Yields items
      (do
        let b ← ofExcept v.bind
        let t ← target.emit .equal [b]
        pure (.tests target [t]))
      ((v.bind.toOption.map fun b => .tests target (.one .equal (fun _ => rfl) b) []).map
        BoundClause.yield) 0 0 := by
  refine ((yields_ofExcept v.bind).bind fun b => (yields_emit items target .equal [b]).bind
    fun t => yields_pure (Clause.tests target [t])).cast ?_ rfl rfl
  cases v.bind.toOption <;>
    simp [BoundClause.yield, BoundClause.clause, BoundClause.bindings, BoundTest.one]

/-- What a condition that is null is compiled to. -/
theorem yields_isNull (target : Target) :
    Yields items (do let t ← target.emit .isNull []; pure (.tests target [t]))
      (some (BoundClause.tests target ⟨.isNull, [], rfl⟩ []).yield) 0 0 := by
  refine ((yields_emit items target .isNull []).bind fun t =>
    yields_pure (Clause.tests target [t])).cast ?_ rfl rfl
  simp [BoundClause.yield, BoundClause.clause, BoundClause.bindings]

/-- What a field is compiled to. -/
theorem yields_compileField (field : String) (condition : Value) :
    Yields items (compileField qualifier field condition)
      ((boundField items qualifier field condition).map BoundClause.yield) 0
      (Operator.used condition) := by
  unfold compileField boundField
  cases Target.ofField qualifier field with
  | error e => cases condition <;> exact yields_throw _ 0 _
  | ok target =>
    simp only [ofExcept_ok, pure_bind, Except.toOption, Option.bind_eq_bind, Option.bind_some]
    cases condition with
    | array l => exact yields_throw _ 0 _
    | object entries => exact yields_compileOperators items field target entries
    | null => exact yields_isNull items target
    | undefined => exact yields_isNull items target
    | _ => exact yields_equal items target _

/-- One clause in front of others. -/
theorem yields_cons {m : CompileM Clause} {ms : CompileM (List Clause)} {r : Option BoundClause}
    {rs : Option (List BoundClause)} {d d' n n' : Nat}
    (h : Yields items m (r.map BoundClause.yield) d n)
    (hs : Yields items ms (rs.map BoundClause.yieldAll) d' n') :
    Yields items (do let c ← m; let cs ← ms; pure (c :: cs))
      ((do let b ← r; let bs ← rs; some (b :: bs)).map BoundClause.yieldAll)
      (max d d') (n + n') := by
  refine (h.bind fun c => hs.bind fun cs => yields_pure (c :: cs)).cast ?_ ?_ rfl
  · cases r with
    | none => rfl
    | some b =>
      cases rs with
      | none => rfl
      | some bs => simp [BoundClause.yield, BoundClause.yieldAll, BoundClause.clauses,
          BoundClause.allBindings]
  · simp

theorem yields_compileFields (fields : List (String × Value)) :
    Yields items (compileFields qualifier fields)
      ((boundFields items qualifier fields).map BoundClause.yieldAll) 0
      (operatorsFields fields) := by
  induction fields with
  | nil => exact yields_pure []
  | cons p l ih =>
    obtain ⟨field, condition⟩ := p
    exact yields_cons items (yields_compileField items qualifier field condition) ih

theorem toOption_conjunction (bs : List BoundClause) :
    (conjunction (BoundClause.clauses bs)).toOption =
      (BoundClause.conjunction bs).map BoundClause.clause := by
  match bs with
  | [] => rfl
  | [b] => rfl
  | b :: b' :: bs => rfl

/-- The four parts of a filter object put together. -/
theorem yield_conjunction (as os fs bs : List BoundClause) :
    ((conjunction ((((BoundClause.clauses as ++ BoundClause.clauses os) ++
        BoundClause.clauses fs) ++ BoundClause.clauses bs))).toOption.map fun c =>
          (c, BoundClause.allBindings as ++ (BoundClause.allBindings os ++
            (BoundClause.allBindings fs ++ BoundClause.allBindings bs)))) =
      (BoundClause.conjunction (as ++ os ++ fs ++ bs)).map BoundClause.yield := by
  rw [← BoundClause.clauses_append, ← BoundClause.clauses_append, ← BoundClause.clauses_append,
    toOption_conjunction]
  cases h : BoundClause.conjunction (as ++ os ++ fs ++ bs) with
  | none => rfl
  | some b =>
    have hb := BoundClause.bindings_conjunction h
    simp only [BoundClause.allBindings_append, List.append_assoc] at hb
    simp [BoundClause.yield, hb]

mutual

/-- **What a filter is compiled to**: the clause that it asks for, at the price of its depth and its
operators. -/
theorem yields_compile (qualifier : Option Identifier) : ∀ f : Filter,
    Yields items (compile qualifier f) ((bound items qualifier f).map BoundClause.yield)
      f.depth f.operators
  | .notObject s => yields_throw _ _ _
  | .object conj disj fields blocks => by
    have has := yields_compileCombination qualifier .and conj
    have hos := yields_compileCombination qualifier .or disj
    have hfs := yields_compileFields items qualifier fields
    have hbs := yields_compileBlocks qualifier blocks
    rw [compile, bound]
    refine (has.bind fun as => hos.bind fun os => hfs.bind fun fs => hbs.bind fun bs =>
      yields_ofExcept (conjunction (as ++ os ++ fs ++ bs))).nested.cast ?_ ?_ ?_
    · cases boundCombination items qualifier .and conj with
      | none => rfl
      | some as =>
      cases boundCombination items qualifier .or disj with
      | none => rfl
      | some os =>
      cases boundFields items qualifier fields with
      | none => rfl
      | some fs =>
      cases boundBlocks items qualifier blocks with
      | none => rfl
      | some bs =>
        simp only [Option.bind_eq_bind, Option.bind_some, ← yield_conjunction]
        simp [BoundClause.yieldAll, Function.comp_def]
    · simp [depth]
    · simp [operators]

theorem yields_compileCombination (qualifier : Option Identifier) (c : Combinator) :
    ∀ given : Combination Filter, Yields items (compileCombination qualifier c given)
      ((boundCombination items qualifier c given).map BoundClause.yieldAll)
      (depthCombination given) (operatorsCombination given)
  | .absent => yields_pure []
  | .notArray => yields_throw _ _ _
  | .items [] => yields_throw _ _ _
  | .items (f :: l) => by
    have hl := yields_compileItems qualifier (f :: l)
    refine (yields_countOperator.bind fun _ => hl.bind fun cs =>
      yields_pure [Clause.combined c cs]).cast ?_ ?_ ?_
    · rw [boundCombination]
      cases hbs : boundItems items qualifier (f :: l) with
      | none => rfl
      | some bs =>
        cases bs with
        | nil =>
          rw [boundItems] at hbs
          cases h : bound items qualifier f <;> cases h' : boundItems items qualifier l <;>
            simp [h, h'] at hbs
        | cons b bs => simp [BoundClause.yieldAll, BoundClause.clauses, BoundClause.allBindings,
            BoundClause.clause, BoundClause.bindings]
    · simp [depthCombination]
    · simp [operatorsCombination, Nat.add_comm]

theorem yields_compileItems (qualifier : Option Identifier) : ∀ l : List Filter,
    Yields items (compileItems qualifier l)
      ((boundItems items qualifier l).map BoundClause.yieldAll) (depthItems l) (operatorsItems l)
  | [] => yields_pure []
  | f :: l => by
    have hf := yields_compile qualifier f
    have hl := yields_compileItems qualifier l
    rw [compileItems, boundItems]
    exact yields_cons items hf hl

theorem yields_compileBlocks (qualifier : Option Identifier) : ∀ l : List (String × Filter),
    Yields items (compileBlocks qualifier l)
      ((boundBlocks items qualifier l).map BoundClause.yieldAll) (depthBlocks l)
      (operatorsBlocks l)
  | [] => yields_pure []
  | (name, f) :: l => by
    have hl := yields_compileBlocks qualifier l
    rw [compileBlocks, boundBlocks]
    cases blockAlias qualifier name with
    | error e => exact yields_throw e _ _
    | ok inner =>
      have hf := yields_compile (some inner) f
      exact yields_cons items hf hl

end

end Filter

/-- **When a filter document compiles, and to what.** -/
theorem compile_eq_ok_iff {limits : Limits} {v : Value} {f : Fragment} :
    compile limits v = .ok f ↔
      ∃ b, (Filter.ofValue v).bound limits.listItems none = some b ∧
        (Filter.ofValue v).depth ≤ limits.nestingDepth ∧
        (Filter.ofValue v).operators ≤ limits.operators ∧
        f = { text := "(" ++ b.clause.text ++ ")", bindings := b.bindings } := by
  have key := Filter.yields_compile limits.listItems none (Filter.ofValue v) { limits } rfl
    (Compilation.within_start limits)
  simp only [Nat.zero_add] at key
  unfold compile
  constructor
  · intro h
    split at h
    · next clause c hc =>
      obtain ⟨bs, hmap, hd, hn, rfl⟩ := (key _ _).1 hc
      obtain ⟨b, hb, heq⟩ := Option.map_eq_some_iff.1 hmap
      cases heq
      cases h
      exact ⟨b, hb, hd, hn, rfl⟩
    · cases h
  · rintro ⟨b, hb, hd, hn, rfl⟩
    rw [(key b.clause _).2 ⟨b.bindings, by rw [hb]; rfl, hd, hn, rfl⟩]
    rfl

end BoundSql
