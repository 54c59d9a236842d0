import BoundSql.Proofs.Clause.Shape
import BoundSql.Proofs.Compilation.Ending
import BoundSql.Proofs.Filter.Cause

/-!
# How compiling a filter ends

The compiler works its way down a document. At each place it ends with a clause about the columns of
the document, with an error that the document gives cause for, or because a limit is reached that
the size of what it compiles allows it to reach. The lemmas say so for each of its functions
(`ends_…`); a place is handed down from each function to those that it calls. At the root, where
nothing is counted yet, what is reached by the document as a whole is too much in the document.
-/

namespace BoundSql

open CompileM

/-- A document holds a field of a column. -/
def Value.HoldsColumn (v : Value) (i : Identifier) : Prop :=
  ∃ field condition, v.HoldsField field condition ∧ i.name = Field.column field

/-- The columns of some targets are columns of a document. -/
def Value.HoldsTargets (v : Value) (targets : List Target) : Prop :=
  ∀ t ∈ targets, v.HoldsColumn t.column

variable {limits : Limits} {v : Value}

theorem ends_emit (target : Target) (test : Test) (operands : List Binding) :
    Ends limits (target.emit test operands) (fun _ => True) (v.Warrants limits) 0 0 :=
  (ends_addBindings _).bind fun _ _ => ends_pure trivial

theorem Value.HoldsScalar.ends_bind {w : Value} (h : v.HoldsScalar w) :
    Ends limits (ofExcept w.bind) (fun _ => True) (v.Warrants limits) 0 0 :=
  .ofExcept (fun _ _ => trivial) fun _ => h.warrants_of_bind

/-! ## Operators -/

namespace Operator

variable {target : Target} {op : Operator} {operand : Value}

theorem ends_compileScalar (h : v.HoldsScalar operand) (test : Test) :
    Ends limits (compileScalar target operand test) (fun _ => True) (v.Warrants limits) 0 1 :=
  h.ends_bind.bind fun b _ => ends_countOperator.bind fun _ _ => ends_emit target test [b]

theorem ends_compileNotEqual (h : v.HoldsScalar operand) :
    Ends limits (compileNotEqual target operand) (fun _ => True) (v.Warrants limits) 0 1 := by
  unfold compileNotEqual
  cases operand.isNullish with
  | true => exact ends_countOperator.bind fun _ _ => ends_emit target .isNotNull []
  | false =>
    exact ends_countOperator.bind fun _ _ => h.ends_bind.bind fun b _ =>
      ends_emit target .notEqual [b]

theorem ends_compileList (hop : op.expected? = some .array) (h : v.HoldsOperand op operand)
    (hdefined : operand.isUndefined = false) (test : Nat → Test) :
    Ends limits (compileList target op operand test) (fun _ => True) (v.Warrants limits) 0 1 := by
  cases operand with
  | array l =>
    refine Ends.read fun c hc => ?_
    rw [hc]
    have hlist : Ends limits (ofExcept (Fragment.ofList op l limits.listItems)) (fun _ => True)
        (v.Warrants limits) 0 0 := .ofExcept (fun _ _ => trivial) fun _ => h.warrants_of_ofList hop
    exact hlist.bind fun list _ => ends_countOperator.bind fun _ _ =>
      ends_emit target (test l.length) list.bindings
  | _ => exact ends_throw (.operandShape h hdefined hop nofun)

theorem ends_compilePattern (hop : op.expected? = some .string) (h : v.HoldsOperand op operand)
    (hdefined : operand.isUndefined = false) (test : Test) :
    Ends limits (compilePattern target op operand test) (fun _ => True) (v.Warrants limits)
      0 1 := by
  cases operand with
  | text pattern =>
    exact ends_countOperator.bind fun _ _ => ends_emit target test [.text pattern]
  | _ => exact ends_throw (.operandShape h hdefined hop nofun)

/-- How an operator ends: with no test only if it asks nothing, and then it is not counted. -/
theorem ends_compile (h : v.HoldsOperand op operand) :
    Ends limits (op.compile target operand) (fun t => t = none → op.skips operand = true)
      (v.Warrants limits) 0 (if op.skips operand then 0 else 1) := by
  have hsome : ∀ {m : CompileM Test}, Ends limits m (fun _ => True) (v.Warrants limits) 0 1 →
      Ends limits (some <$> m) (fun t => t = none → op.skips operand = true)
        (v.Warrants limits) 0 1 := fun hm => hm.map fun _ _ h => by cases h
  cases hs : op.skips operand with
  | true =>
    rw [compile_of_skips hs]
    exact ends_pure fun _ => rfl
  | false =>
    rw [hs] at hsome
    have hundefined := not_undefined_of_not_skips hs
    have hdefined : op ≠ notEqual → operand.isUndefined = false := fun hne =>
      Bool.eq_false_iff.2 fun hu => hundefined ⟨hu, hne⟩
    unfold Operator.compile
    rw [if_neg hundefined]
    cases op with
    | greater => exact hsome (ends_compileScalar (.operand (by decide) h) .greater)
    | atLeast => exact hsome (ends_compileScalar (.operand (by decide) h) .atLeast)
    | less => exact hsome (ends_compileScalar (.operand (by decide) h) .less)
    | atMost => exact hsome (ends_compileScalar (.operand (by decide) h) .atMost)
    | notEqual => exact hsome (ends_compileNotEqual (.operand (by decide) h))
    | oneOf => exact hsome (ends_compileList rfl h (hdefined (by decide)) .oneOf)
    | noneOf => exact hsome (ends_compileList rfl h (hdefined (by decide)) .noneOf)
    | like => exact hsome (ends_compilePattern rfl h (hdefined (by decide)) .like)
    | likeNoCase => exact hsome (ends_compilePattern rfl h (hdefined (by decide)) .likeNoCase)
    | regex => exact hsome (ends_compilePattern rfl h (hdefined (by decide)) .regex)
    | present => cases hs

/-- How some operators end: with no tests only if all ask nothing. -/
theorem ends_compileAll {ops : List (Operator × Value)}
    (h : ∀ p ∈ ops, v.HoldsOperand p.1 p.2) :
    Ends limits (compileAll target ops) (fun ts => ts = [] → ∀ p ∈ ops, p.1.skips p.2 = true)
      (v.Warrants limits) 0 (ops.countP fun p => !p.1.skips p.2) := by
  induction ops with
  | nil => exact ends_pure fun _ => nofun
  | cons p ops ih =>
    obtain ⟨op, operand⟩ := p
    rw [List.forall_mem_cons] at h
    have hskips : ∀ (t : Option Test) (ts : List Test), (t = none → op.skips operand = true) →
        (ts = [] → ∀ p ∈ ops, p.1.skips p.2 = true) →
        t.toList ++ ts = [] → ∀ p ∈ (op, operand) :: ops, p.1.skips p.2 = true := by
      intro t ts ht hts hnil
      rw [List.append_eq_nil_iff, Option.toList_eq_nil_iff] at hnil
      rw [List.forall_mem_cons]
      exact ⟨ht hnil.1, hts hnil.2⟩
    refine ((ends_compile h.1).bind fun t ht => (ih h.2).bind fun ts hts =>
      ends_pure (hskips t ts ht hts)).mono (Nat.le_refl 0) ?_
    cases hs : op.skips operand <;> simp [hs, Nat.add_comm]

end Operator

/-! ## Fields -/

namespace Filter

variable {field : String} {condition : Value} {target : Target} {entries : List (String × Value)}
  {qualifier : Option Identifier} {blocks : List String}

theorem ends_tests (htarget : v.HoldsColumn target.column) (ts : List Test) :
    Ends limits (pure (Clause.tests target ts)) (fun c => v.HoldsTargets c.targets)
      (v.Warrants limits) 0 0 :=
  ends_pure fun t ht => by
    rw [List.mem_singleton.1 ht]
    exact htarget

/-- How an operator object ends: nothing is counted but what it uses. -/
theorem ends_compileOperators (h : v.HoldsField field (.object entries))
    (htarget : v.HoldsColumn target.column) :
    Ends limits (compileOperators field target entries) (fun c => v.HoldsTargets c.targets)
      (v.Warrants limits) 0 (Operator.used (.object entries)) := by
  unfold compileOperators
  cases hops : Operator.ofEntries entries with
  | error e =>
    obtain ⟨key, operand, hmem, hbad, rfl⟩ := Operator.eq_of_ofEntries_eq_error hops
    exact ends_throw (.unknownOperator h hmem hbad)
  | ok ops =>
    obtain rfl := Operator.ofEntries_eq_ok_iff.1 hops
    have hoperand : ∀ p ∈ ops, v.HoldsOperand p.1 p.2 := fun p hp =>
      ⟨field, _, h, List.mem_map_of_mem hp⟩
    rw [used_entriesOf, ofExcept_ok, pure_bind]
    cases hpresence : Operator.presence? ops with
    | none =>
      have htests : ∀ ts : List Test, (ts = [] → ∀ p ∈ ops, p.1.skips p.2 = true) →
          Ends limits
            (if ts.isEmpty then throw (.emptyOperators field) else pure (.tests target ts))
            (fun c : Clause => v.HoldsTargets c.targets) (v.Warrants limits) 0 0 := by
        intro ts hts
        cases ts with
        | nil =>
          exact ends_throw (.emptyOperators h (Operator.known_iff.2 ⟨ops, rfl⟩)
            (Operator.undefined_of_skips hpresence (hts rfl)))
        | cons t ts => exact ends_tests htarget (t :: ts)
      exact (Operator.ends_compileAll hoperand).bind htests
    | some operand =>
      obtain ⟨p, hfind, rfl⟩ := Option.map_eq_some_iff.1 hpresence
      have hp := List.find?_some hfind
      simp only [Bool.and_eq_true, decide_eq_true_eq, Bool.not_eq_true'] at hp
      have hpresent := hoperand p (List.mem_of_find?_eq_some hfind)
      rw [hp.1] at hpresent
      have hshape : p.2.shape ≠ .boolean → v.Warrants limits (.operandShape .present .boolean) :=
        .operandShape hpresent hp.2 rfl
      cases hoperand : p.2 with
      | bool b =>
        exact ends_countOperator.bind fun _ _ => (ends_emit target _ []).bind fun t _ =>
          ends_tests htarget [t]
      | _ =>
        rw [hoperand] at hshape
        exact ends_throw (hshape nofun)

theorem ends_isNull (htarget : v.HoldsColumn target.column) :
    Ends limits (do let t ← target.emit .isNull []; pure (.tests target [t]))
      (fun c : Clause => v.HoldsTargets c.targets) (v.Warrants limits) 0 0 :=
  (ends_emit target .isNull []).bind fun t _ => ends_tests htarget [t]

theorem ends_equal (hscalar : v.HoldsScalar condition) (htarget : v.HoldsColumn target.column) :
    Ends limits
      (do
        let b ← ofExcept condition.bind
        let t ← target.emit .equal [b]
        pure (.tests target [t]))
      (fun c : Clause => v.HoldsTargets c.targets) (v.Warrants limits) 0 0 :=
  hscalar.ends_bind.bind fun b _ => (ends_emit target .equal [b]).bind fun t _ =>
    ends_tests htarget [t]

/-- How a field ends: with a clause about its column. -/
theorem ends_compileField (h : v.HoldsField field condition) :
    Ends limits (compileField qualifier field condition) (fun c => v.HoldsTargets c.targets)
      (v.Warrants limits) 0 (Operator.used condition) := by
  have htarget : Ends limits (ofExcept (Target.ofField qualifier field))
      (fun t => v.HoldsColumn t.column) (v.Warrants limits) 0 0 :=
    .ofExcept (fun t ht => ⟨field, condition, h, (Target.ofField_eq_ok_iff.1 ht).2.2.1⟩)
      fun _ => h.warrants_of_ofField
  unfold compileField
  cases condition with
  | array l => exact ends_throw (.arrayField h)
  | object entries =>
    refine (htarget.bind fun t ht => ends_compileOperators h ht).mono (Nat.le_refl 0) ?_
    rw [Nat.zero_add]
  | null => exact htarget.bind fun t ht => ends_isNull ht
  | undefined => exact htarget.bind fun t ht => ends_isNull ht
  | _ => exact htarget.bind fun t ht => ends_equal (.condition h nofun nofun) ht

/-! ## Filters -/

@[simp] theorem allTargets_append (cs cs' : List Clause) :
    Clause.allTargets (cs ++ cs') = Clause.allTargets cs ++ Clause.allTargets cs' := by
  induction cs with
  | nil => rfl
  | cons c cs ih =>
    rw [List.cons_append, Clause.allTargets, ih, Clause.allTargets, List.append_assoc]

/-- Some clauses are about the columns of a document, and there are none only if nothing asks for
them. -/
structure AsksOf (v : Value) (nothing : Prop) (cs : List Clause) : Prop where
  holdsTargets : v.HoldsTargets (Clause.allTargets cs)
  nothing_of_nil : cs = [] → nothing

/-- One more clause, in front. -/
theorem ends_cons {α : Type} {m : CompileM Clause} {ms : CompileM (List Clause)} {a : α}
    {l : List α} {d d' n n' : Nat}
    (h : Ends limits m (fun c => v.HoldsTargets c.targets) (v.Warrants limits) d n)
    (hs : Ends limits ms (AsksOf v (l = [])) (v.Warrants limits) d' n') :
    Ends limits (do let c ← m; let cs ← ms; pure (c :: cs)) (AsksOf v (a :: l = []))
      (v.Warrants limits) (max d d') (n + n') := by
  have hcons : ∀ c cs, v.HoldsTargets c.targets → AsksOf v (l = []) cs →
      AsksOf v (a :: l = []) (c :: cs) := fun c cs hc hcs =>
    ⟨List.forall_mem_append.2 ⟨hc, hcs.holdsTargets⟩, nofun⟩
  refine (h.bind fun c hc => hs.bind fun cs hcs => ends_pure (hcons c cs hc hcs)).mono ?_ ?_
  · rw [Nat.max_zero]
  · rw [Nat.add_zero]

theorem ends_compileFields {fields : List (String × Value)}
    (h : ∀ e ∈ fields, v.HoldsField e.1 e.2) :
    Ends limits (compileFields qualifier fields) (AsksOf v (fields = [])) (v.Warrants limits) 0
      (operatorsFields fields) := by
  induction fields with
  | nil => exact ends_pure ⟨nofun, fun _ => rfl⟩
  | cons e l ih =>
    rw [List.forall_mem_cons] at h
    exact ends_cons (ends_compileField h.1) (ih h.2)

/-- The clauses of a filter object make one clause, unless there are none. -/
theorem ends_conjunction {cs : List Clause} (htargets : v.HoldsTargets (Clause.allTargets cs))
    (hnil : cs = [] → v.Warrants limits .emptyFilter) :
    Ends limits (ofExcept (conjunction cs)) (fun c => v.HoldsTargets c.targets)
      (v.Warrants limits) 0 0 := by
  match cs with
  | [] => exact ends_throw (hnil rfl)
  | [c] =>
    rw [Clause.allTargets, Clause.allTargets, List.append_nil] at htargets
    exact ends_pure htargets
  | c :: c' :: cs => exact ends_pure htargets

/-- A filter object that is made of its parts. -/
theorem exists_entries_of_eq_ofValue {w : Value} {conj disj : Combination Filter}
    {fields : List (String × Value)} {inner : List (String × Filter)}
    (h : .object conj disj fields inner = ofValue w) :
    ∃ entries, w = .object entries ∧ partsOf entries = ⟨conj, disj, fields, inner⟩ := by
  cases w with
  | object entries =>
    rw [ofValue, ofParts, object.injEq] at h
    obtain ⟨rfl, rfl, rfl, rfl⟩ := h
    exact ⟨entries, rfl, rfl⟩
  | _ => cases h

theorem mem_ofItems {l : List Value} {f : Filter} (h : f ∈ ofItems l) :
    ∃ w ∈ l, f = ofValue w := by
  induction l with
  | nil => cases h
  | cons w l ih =>
    rw [ofItems, List.mem_cons] at h
    rcases h with rfl | h
    · exact ⟨w, List.mem_cons_self, rfl⟩
    · obtain ⟨w', hw', heq⟩ := ih h
      exact ⟨w', List.mem_cons_of_mem _ hw', heq⟩

/-- What a combinator was given, if it was given filters. -/
theorem exists_array_of_eq_combinationOf {w : Value} {items : List Filter}
    (h : .items items = combinationOf w) : ∃ l, w = .array l ∧ items = ofItems l := by
  cases w with
  | array l =>
    rw [combinationOf, Combination.items.injEq] at h
    exact ⟨l, rfl, h⟩
  | _ => cases h

mutual

/-- **How a filter ends**: with a clause about the columns of the document that holds it. -/
theorem ends_compile (qualifier : Option Identifier) (blocks : List String)
    (hq : qualifier.map Identifier.name = blocks.head?) : ∀ (f : Filter) (w : Value),
    f = ofValue w → v.HoldsFilter blocks w →
      Ends limits (compile qualifier f) (fun c => v.HoldsTargets c.targets) (v.Warrants limits)
        f.depth f.operators
  | .notObject s, w, hw, h => by
    cases w with
    | object entries => cases hw
    | _ =>
      cases hw
      exact ends_throw (h.warrants_notAnObject rfl)
  | .object conj disj fields inner, w, hw, h => by
    obtain ⟨entries, rfl, hparts⟩ := exists_entries_of_eq_ofValue hw
    have hof := of_partsOf entries
    rw [hparts] at hof
    have has := ends_compileCombination qualifier blocks hq .and conj
      ((hof.combination .and).imp_right fun ⟨w, hmem, heq⟩ => ⟨w, ⟨entries, h, hmem⟩, heq⟩)
    have hos := ends_compileCombination qualifier blocks hq .or disj
      ((hof.combination .or).imp_right fun ⟨w, hmem, heq⟩ => ⟨w, ⟨entries, h, hmem⟩, heq⟩)
    have hfs : Ends limits (compileFields qualifier fields) (AsksOf v (fields = []))
        (v.Warrants limits) 0 (operatorsFields fields) := ends_compileFields fun e he =>
      ⟨(hof.field e he).2, blocks, entries, h, (hof.field e he).1⟩
    have hbs := ends_compileBlocks qualifier blocks hq inner fun b hb => by
      obtain ⟨w, hmem, heq⟩ := hof.block b hb
      exact ⟨w, ⟨entries, h, hmem⟩, heq⟩
    have hconjunction : ∀ as os fs bs, AsksOf v (conj = .absent) as → AsksOf v (disj = .absent) os →
        AsksOf v (fields = []) fs → AsksOf v (inner = []) bs →
        Ends limits (ofExcept (conjunction (as ++ os ++ fs ++ bs)))
          (fun c => v.HoldsTargets c.targets) (v.Warrants limits) 0 0 := by
      intro as os fs bs has hos hfs hbs
      refine ends_conjunction ?_ fun hnil => ?_
      · simp only [allTargets_append, Value.HoldsTargets, List.forall_mem_append]
        exact ⟨⟨⟨has.holdsTargets, hos.holdsTargets⟩, hfs.holdsTargets⟩, hbs.holdsTargets⟩
      · simp only [List.append_eq_nil_iff] at hnil
        obtain ⟨⟨⟨hanil, honil⟩, hfnil⟩, hbnil⟩ := hnil
        refine .emptyFilter h (hof.nothing (fun c => ?_) (hfs.nothing_of_nil hfnil)
          (hbs.nothing_of_nil hbnil))
        cases c with
        | and => exact has.nothing_of_nil hanil
        | or => exact hos.nothing_of_nil honil
    rw [compile]
    refine (has.bind fun as has => hos.bind fun os hos => hfs.bind fun fs hfs =>
      hbs.bind fun bs hbs => hconjunction as os fs bs has hos hfs hbs).nested.mono ?_ ?_
    · simp [depth]
    · simp [operators]

theorem ends_compileCombination (qualifier : Option Identifier) (blocks : List String)
    (hq : qualifier.map Identifier.name = blocks.head?) (c : Combinator) :
    ∀ given : Combination Filter,
      (given = .absent ∨ ∃ w, v.HoldsEntry blocks c.key w ∧ given = combinationOf w) →
      Ends limits (compileCombination qualifier c given) (AsksOf v (given = .absent))
        (v.Warrants limits) (depthCombination given) (operatorsCombination given)
  | .absent, _ => ends_pure ⟨nofun, fun _ => rfl⟩
  | .notArray, h => by
    obtain ⟨w, hw, heq⟩ := h.resolve_left nofun
    refine ends_throw (.combinatorNotArray hw fun hshape => ?_)
    cases w with
    | array l => cases heq
    | _ => cases hshape
  | .items [], h => by
    obtain ⟨w, hw, heq⟩ := h.resolve_left nofun
    obtain ⟨l, rfl, hl⟩ := exists_array_of_eq_combinationOf heq
    cases l with
    | nil =>
      exact ends_throw (.combinatorEmpty hw)
    | cons w l => cases hl
  | .items (f :: l), h => by
    obtain ⟨w, ⟨entries, hfilter, hmem⟩, heq⟩ := h.resolve_left nofun
    obtain ⟨values, rfl, hvalues⟩ := exists_array_of_eq_combinationOf heq
    have hl := ends_compileItems qualifier blocks hq (f :: l) fun f' hf' => by
      rw [hvalues] at hf'
      obtain ⟨w, hw, rfl⟩ := mem_ofItems hf'
      exact ⟨w, rfl, hfilter.item hmem hw⟩
    have hone : ∀ cs, AsksOf v (f :: l = []) cs →
        AsksOf v (Combination.items (f :: l) = .absent) [.combined c cs] := fun cs hcs =>
      ⟨by simpa [Clause.allTargets, Clause.targets] using hcs.holdsTargets, nofun⟩
    refine (ends_countOperator.bind fun _ _ => hl.bind fun cs hcs => ends_pure (hone cs hcs)).mono
      ?_ ?_
    · simp [depthCombination]
    · simp [operatorsCombination, Nat.add_comm]

theorem ends_compileItems (qualifier : Option Identifier) (blocks : List String)
    (hq : qualifier.map Identifier.name = blocks.head?) : ∀ l : List Filter,
    (∀ f ∈ l, ∃ w, f = ofValue w ∧ v.HoldsFilter blocks w) →
      Ends limits (compileItems qualifier l) (AsksOf v (l = [])) (v.Warrants limits) (depthItems l)
        (operatorsItems l)
  | [], _ => ends_pure ⟨nofun, fun _ => rfl⟩
  | f :: l, h => by
    rw [List.forall_mem_cons] at h
    obtain ⟨w, hw, hplace⟩ := h.1
    have hf := ends_compile qualifier blocks hq f w hw hplace
    have hl := ends_compileItems qualifier blocks hq l h.2
    exact ends_cons hf hl

theorem ends_compileBlocks (qualifier : Option Identifier) (blocks : List String)
    (hq : qualifier.map Identifier.name = blocks.head?) : ∀ l : List (String × Filter),
    (∀ b ∈ l, ∃ w, v.HoldsEntry blocks ("$" ++ b.1) w ∧ b.2 = ofValue w) →
      Ends limits (compileBlocks qualifier l) (AsksOf v (l = [])) (v.Warrants limits)
        (depthBlocks l) (operatorsBlocks l)
  | [], _ => ends_pure ⟨nofun, fun _ => rfl⟩
  | (name, f) :: l, h => by
    rw [List.forall_mem_cons] at h
    obtain ⟨⟨w, hw, heq⟩, hl⟩ := h
    have hl := ends_compileBlocks qualifier blocks hq l hl
    rw [compileBlocks]
    cases halias : blockAlias qualifier name with
    | error e =>
      exact ends_throw (hw.warrants_of_blockAlias hq halias)
    | ok i =>
      obtain ⟨-, rfl⟩ := blockAlias_eq_ok_iff.1 halias
      obtain ⟨entries, hfilter, hmem⟩ := hw
      have hf := ends_compile (some i) (i.name :: blocks) rfl f w heq (hfilter.block hmem)
      exact ends_cons hf hl

end

end Filter

/-- **How a compilation ends**: with the text of a clause about columns of the document, or with an
error that the document gives cause for. -/
theorem compile_cases (limits : Limits) (v : Value) :
    (∃ (clause : Clause) (bindings : List Binding), v.HoldsTargets clause.targets ∧
      compile limits v = .ok { text := "(" ++ clause.text ++ ")", bindings }) ∨
    ∃ e, v.Warrants limits e ∧ compile limits v = .error e := by
  have hends := Filter.ends_compile none [] rfl (Filter.ofValue v) v rfl .root { limits } rfl
  unfold compile
  revert hends
  generalize Filter.compile none (Filter.ofValue v) { limits } = r
  intro hends
  cases hends with
  | value hclause _ => exact .inl ⟨_, _, hclause, rfl⟩
  | cause he => exact .inr ⟨_, he, rfl⟩
  | tooDeep hlt =>
    rw [Filter.depth_ofValue, Nat.zero_add] at hlt
    exact .inr ⟨_, .tooDeep hlt, rfl⟩
  | tooManyOperators hlt =>
    rw [Filter.operators_ofValue, Nat.zero_add] at hlt
    exact .inr ⟨_, .tooManyOperators hlt, rfl⟩

/-- **Every refusal is true**: what the error names stands in the document, at a place where it is
at fault, and it is for whoever wrote the document to mend. -/
theorem compile_error_warranted {limits : Limits} {v : Value} {e : Error}
    (h : compile limits v = .error e) :
    e.kind ∈ [.structural, .identifier, .operator, .resourceLimit, .coercion] ∧
      e.isClientError = true ∧ v.Warrants limits e := by
  rcases compile_cases limits v with ⟨clause, bindings, -, hok⟩ | ⟨e', he', herror⟩
  · rw [hok] at h
    cases h
  · rw [herror] at h
    cases h
    have hkind := he'.kind_mem
    refine ⟨hkind, ?_, he'⟩
    rw [Error.isClientError, decide_eq_true_eq]
    rintro hconfig
    rw [hconfig] at hkind
    revert hkind
    decide

/-- A segment that begins with a digit, below an alias and among the items of a combinator. -/
theorem compile_error_warranted_below_alias :
    compile {} (.object [("or", .array [.object [("a", .int 1)],
        .object [("$t", .object [("meta.2x", .null)])]])]) =
          .error (.badPath "meta.2x" .badSegment) ∧
      (Error.badPath "meta.2x" .badSegment).isClientError = true ∧
      (Value.object [("or", .array [.object [("a", .int 1)],
        .object [("$t", .object [("meta.2x", .null)])]])]).Warrants {}
          (.badPath "meta.2x" .badSegment) := by
  have h : compile {} (.object [("or", .array [.object [("a", .int 1)],
      .object [("$t", .object [("meta.2x", .null)])]])]) =
        .error (.badPath "meta.2x" .badSegment) :=
    rfl
  exact ⟨h, (compile_error_warranted h).2⟩

end BoundSql
