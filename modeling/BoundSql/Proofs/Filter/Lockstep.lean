import BoundSql.Proofs.Filter.Alike

/-!
# Compiling filters that are alike

Compiling two documents that are alike goes in lockstep: both are refused with the same error, or
both compile to the same text with equally many bindings (`compile_alike`). So nothing of an operand
is ever seen in the text of a fragment, nor in whether there is one.
-/

namespace BoundSql

/-! ## Operators -/

open CompileM

theorem lockstep_emit (target : Target) (test : Test) {bs bs' : List Binding}
    (h : bs.length = bs'.length) :
    Lockstep Eq (target.emit test bs) (target.emit test bs') := by
  refine (Lockstep.addBindings ?_).bind fun _ _ _ => .pure rfl
  rw [List.length_append, List.length_append, h]

namespace Operator

variable {op : Operator} {v w : Value} (target : Target)

theorem lockstep_compileScalar (test : Test) (h : AlikeScalar v w) :
    Lockstep Eq (compileScalar target v test) (compileScalar target w test) :=
  (Lockstep.ofExcept (sameOutcome_bind h)).bind fun _ _ _ =>
    Lockstep.countOperator.bind fun _ _ _ => lockstep_emit target test rfl

theorem lockstep_compileNotEqual (h : AlikeScalar v w) :
    Lockstep Eq (compileNotEqual target v) (compileNotEqual target w) := by
  refine Lockstep.countOperator.bind fun _ _ _ => ?_
  rw [h.isNullish_eq]
  split
  · exact lockstep_emit target .isNotNull rfl
  · exact (Lockstep.ofExcept (sameOutcome_bind h)).bind fun _ _ _ =>
      lockstep_emit target .notEqual rfl

theorem lockstep_compileList (h : AlikeOperand op v w) (hop : op ∈ [.oneOf, .noneOf])
    (test : Nat → Test) :
    Lockstep Eq (compileList target op v test) (compileList target op w test) := by
  rcases h.alikeList hop with ⟨l, m, rfl, rfl, hlm⟩ | ⟨rfl, hne⟩
  · refine Lockstep.get.bind fun c c' hc => ?_
    rw [hc.limits, hlm.length_eq]
    exact (Lockstep.ofExcept (sameOutcome_ofList op _ hlm)).bind fun _ _ hlen =>
      Lockstep.countOperator.bind fun _ _ _ => lockstep_emit target _ hlen
  · cases v with
    | array l => exact absurd rfl (hne l)
    | _ => exact .throw _

theorem lockstep_compilePattern (h : AlikeOperand op v w) (hop : op ∈ [.like, .likeNoCase, .regex])
    (test : Test) :
    Lockstep Eq (compilePattern target op v test) (compilePattern target op w test) := by
  rcases h.alikePattern hop with ⟨s, t, rfl, rfl⟩ | ⟨rfl, hne⟩
  · exact Lockstep.countOperator.bind fun _ _ _ => lockstep_emit target test rfl
  · cases v with
    | text s => exact absurd rfl (hne s)
    | _ => exact .throw _

/-- An operator is compiled to the same test of operands that it does not tell apart. -/
theorem lockstep_compile (h : AlikeOperand op v w) :
    Lockstep Eq (op.compile target v) (op.compile target w) := by
  unfold Operator.compile
  rw [h.isUndefined_eq]
  split
  · exact .pure rfl
  have hsome : ∀ {m m' : CompileM Test}, Lockstep Eq m m' →
      Lockstep Eq (some <$> m) (some <$> m') := fun hm => hm.map fun _ _ h => congrArg some h
  cases op with
  | greater => exact hsome (lockstep_compileScalar target _ (h.alikeScalar (by decide)))
  | atLeast => exact hsome (lockstep_compileScalar target _ (h.alikeScalar (by decide)))
  | less => exact hsome (lockstep_compileScalar target _ (h.alikeScalar (by decide)))
  | atMost => exact hsome (lockstep_compileScalar target _ (h.alikeScalar (by decide)))
  | notEqual => exact hsome (lockstep_compileNotEqual target (h.alikeScalar (by decide)))
  | oneOf => exact hsome (lockstep_compileList target h (by decide) _)
  | noneOf => exact hsome (lockstep_compileList target h (by decide) _)
  | like => exact hsome (lockstep_compilePattern target h (by decide) _)
  | likeNoCase => exact hsome (lockstep_compilePattern target h (by decide) _)
  | regex => exact hsome (lockstep_compilePattern target h (by decide) _)
  | present => exact .pure rfl

/-- Operators that are the same, with operands that they do not tell apart. -/
def AlikeAsked (p p' : Operator × Value) : Prop :=
  p.1 = p'.1 ∧ AlikeOperand p.1 p.2 p'.2

/-- Operator objects that are alike are both read, or both refused for the same key. -/
theorem sameOutcome_ofEntries {l m : List (String × Value)} (h : List.Forall₂ AlikeOperator l m) :
    SameOutcome (List.Forall₂ AlikeAsked) (ofEntries l) (ofEntries m) := by
  induction h with
  | nil => exact .ok .nil
  | @cons e e' l m he _ ih =>
    obtain ⟨key, v⟩ := e
    obtain ⟨key', w⟩ := e'
    obtain ⟨hkey, hvw⟩ := he
    simp only at hkey hvw
    subst hkey
    rw [ofEntries, ofEntries]
    cases hop : ofName? key with
    | none => exact .error _
    | some op =>
      refine ih.bind fun ops ops' hops => .ok (.cons ⟨rfl, ?_⟩ hops)
      rcases hvw with rfl | ⟨op', hop', hvw⟩
      · exact .same v
      · rw [ofName?_eq_some_iff.1 hop] at hop'
        obtain rfl := name_injective hop'
        exact hvw

theorem presence?_eq {ops ops' : List (Operator × Value)} (h : List.Forall₂ AlikeAsked ops ops') :
    presence? ops = presence? ops' := by
  induction h with
  | nil => rfl
  | @cons p p' ops ops' hp _ ih =>
    obtain ⟨op, v⟩ := p
    obtain ⟨op', w⟩ := p'
    obtain ⟨rfl, hvw⟩ := hp
    have hu : v.isUndefined = w.isUndefined := hvw.isUndefined_eq
    unfold presence? at ih ⊢
    rw [List.find?_cons, List.find?_cons]
    by_cases hop : op = present
    · subst hop
      obtain rfl := AlikeOperand.eq_of_present hvw
      cases v.isUndefined with
      | true => simpa using ih
      | false => simp
    · simpa [hop] using ih

theorem lockstep_compileAll {ops ops' : List (Operator × Value)}
    (h : List.Forall₂ AlikeAsked ops ops') :
    Lockstep Eq (compileAll target ops) (compileAll target ops') := by
  induction h with
  | nil => exact .pure rfl
  | @cons p p' ops ops' hp _ ih =>
    obtain ⟨op, v⟩ := p
    obtain ⟨op', w⟩ := p'
    obtain ⟨rfl, hvw⟩ := hp
    refine (lockstep_compile target hvw).bind fun t t' ht => ih.bind fun ts ts' hts => .pure ?_
    rw [ht, hts]

end Operator

/-! ## Fields -/

namespace Filter

variable (qualifier : Option Identifier)

/-- A clause with a single test. -/
theorem lockstep_test (target : Target) (test : Test) {bs bs' : List Binding}
    (h : bs.length = bs'.length) :
    Lockstep Eq (do let t ← target.emit test bs; pure (Clause.tests target [t]))
      (do let t ← target.emit test bs'; pure (Clause.tests target [t])) := by
  refine (lockstep_emit target test h).bind fun t t' ht => ?_
  rw [ht]
  exact .pure rfl

theorem lockstep_compileOperators (field : String) (target : Target)
    {l m : List (String × Value)} (h : List.Forall₂ AlikeOperator l m) :
    Lockstep Eq (compileOperators field target l) (compileOperators field target m) := by
  refine (Lockstep.ofExcept (Operator.sameOutcome_ofEntries h)).bind fun ops ops' hops => ?_
  rw [Operator.presence?_eq hops]
  cases Operator.presence? ops' with
  | none =>
    refine (Operator.lockstep_compileAll target hops).bind fun ts ts' hts => ?_
    subst hts
    split
    · exact .throw _
    · exact .pure rfl
  | some v =>
    cases v with
    | bool b =>
      exact Lockstep.countOperator.bind fun _ _ _ => lockstep_test target _ rfl
    | _ => exact .throw _

theorem lockstep_target {field : String} {g g' : Target → CompileM Clause}
    (h : ∀ target, Lockstep Eq (g target) (g' target)) :
    Lockstep Eq (ofExcept (Target.ofField qualifier field) >>= g)
      (ofExcept (Target.ofField qualifier field) >>= g') := by
  refine (Lockstep.ofExcept (R := Eq) (.refl (fun _ => rfl) _)).bind fun target target' ht => ?_
  subst ht
  exact h target

/-- What a condition that is a scalar is compiled to. -/
theorem compileField_of_isScalar (field : String) {v : Value} (hv : v.IsScalar) :
    compileField qualifier field v = (do
      let target ← ofExcept (Target.ofField qualifier field)
      let b ← ofExcept v.bind
      let t ← target.emit .equal [b]
      pure (.tests target [t])) := by
  cases hv <;> rfl

theorem lockstep_equal (target : Target) {v w : Value} (h : AlikeScalar v w) :
    Lockstep Eq
      (do
        let b ← ofExcept v.bind
        let t ← target.emit .equal [b]
        pure (Clause.tests target [t]))
      (do
        let b ← ofExcept w.bind
        let t ← target.emit .equal [b]
        pure (Clause.tests target [t])) :=
  (Lockstep.ofExcept (sameOutcome_bind h)).bind fun _ _ _ => lockstep_test target .equal rfl

/-- A field is compiled to the same clause under conditions that are alike. -/
theorem lockstep_compileField (field : String) {v w : Value} (h : AlikeCondition v w) :
    Lockstep Eq (compileField qualifier field v) (compileField qualifier field w) := by
  have hnull : Lockstep Eq (compileField qualifier field .null)
      (compileField qualifier field .null) :=
    lockstep_target qualifier fun target => lockstep_test target .isNull rfl
  cases h with
  | scalar hv hw =>
    rw [compileField_of_isScalar qualifier field hv, compileField_of_isScalar qualifier field hw]
    exact lockstep_target qualifier fun target => lockstep_equal target (.inr ⟨hv, hw⟩)
  | operators h =>
    exact lockstep_target qualifier fun target => lockstep_compileOperators field target h
  | same =>
    cases v with
    | array l => exact .throw _
    | object entries =>
      exact lockstep_target qualifier fun target => lockstep_compileOperators field target
        (List.forall₂_same.2 fun _ _ => ⟨rfl, .inl rfl⟩)
    | null => exact hnull
    | undefined => exact hnull
    | _ => exact lockstep_target qualifier fun target => lockstep_equal target (.inl rfl)

/-! ## Filters -/

/-- Parts of filter objects whose pieces are compiled in lockstep, one by one. -/
structure Parts.InStep (p p' : Parts) : Prop where
  combination : ∀ c qualifier, Lockstep Eq (compileCombination qualifier c (p.combination c))
    (compileCombination qualifier c (p'.combination c))
  fields : ∀ qualifier, Lockstep Eq (compileFields qualifier p.fields)
    (compileFields qualifier p'.fields)
  blocks : ∀ qualifier, Lockstep Eq (compileBlocks qualifier p.blocks)
    (compileBlocks qualifier p'.blocks)

/-- Values that are compiled in lockstep as what a key is given. -/
structure EntryInStep (key : String) (v w : Value) : Prop where
  combination : ∀ c, Key.ofText key = .combinator c → ∀ qualifier,
    Lockstep Eq (compileCombination qualifier c (combinationOf v))
      (compileCombination qualifier c (combinationOf w))
  block : ∀ name, Key.ofText key = .block name → ∀ qualifier,
    Lockstep Eq (compile qualifier (ofValue v)) (compile qualifier (ofValue w))
  field : ∀ name, Key.ofText key = .field name → ∀ qualifier,
    Lockstep Eq (compileField qualifier name v) (compileField qualifier name w)

/-- One clause in front of others. -/
theorem lockstep_cons {m m' : CompileM Clause} {ms ms' : CompileM (List Clause)}
    (h : Lockstep Eq m m') (hs : Lockstep Eq ms ms') :
    Lockstep Eq (do let c ← m; let cs ← ms; pure (c :: cs))
      (do let c ← m'; let cs ← ms'; pure (c :: cs)) := by
  refine h.bind fun c c' hc => hs.bind fun cs cs' hcs => ?_
  rw [hc, hcs]
  exact .pure rfl

theorem lockstep_ofParts {p p' : Parts} (h : p.InStep p') :
    Lockstep Eq (compile qualifier (ofParts p)) (compile qualifier (ofParts p')) := by
  refine Lockstep.nested ?_
  refine (h.combination .and qualifier).bind fun as as' has => ?_
  refine (h.combination .or qualifier).bind fun os os' hos => ?_
  refine (h.fields qualifier).bind fun fs fs' hfs => ?_
  refine (h.blocks qualifier).bind fun bs bs' hbs => ?_
  rw [has, hos, hfs, hbs]
  exact .ofExcept (.refl (fun _ => rfl) _)

/-- Entries that are compiled in lockstep may be added to parts that are. -/
theorem Parts.InStep.adds {key : String} {v w : Value} {p p' r r' : Parts} (h : p.InStep p')
    (hvw : EntryInStep key v w) (hr : Parts.Adds key v p r) (hr' : Parts.Adds key w p' r') :
    r.InStep r' := by
  cases hr with
  | combinator c hkey habsent =>
    cases hr' with
    | combinator c' hkey' habsent' =>
      obtain rfl : c = c' := Key.combinator.inj (hkey.symm.trans hkey')
      have hgiven := hvw.combination c hkey
      cases c with
      | and => exact ⟨fun | .and => hgiven | .or => h.combination .or, h.fields, h.blocks⟩
      | or => exact ⟨fun | .and => h.combination .and | .or => hgiven, h.fields, h.blocks⟩
    | block name hkey' => cases hkey.symm.trans hkey'
    | field hkey' => cases hkey.symm.trans hkey'
  | block name hkey hobject =>
    cases hr' with
    | combinator c' hkey' => cases hkey.symm.trans hkey'
    | block name' hkey' =>
      obtain rfl : name = name' := Key.block.inj (hkey.symm.trans hkey')
      refine ⟨fun | .and => h.combination .and | .or => h.combination .or, h.fields, fun q => ?_⟩
      refine Lockstep.bind (.ofExcept (.refl (fun _ => rfl) _)) fun inner inner' hinner => ?_
      rw [hinner]
      exact lockstep_cons (hvw.block name hkey _) (h.blocks q)
    | field hkey' => cases hkey.symm.trans hkey'
  | field hkey =>
    cases hr' with
    | combinator c' hkey' => cases hkey.symm.trans hkey'
    | block name' hkey' => cases hkey.symm.trans hkey'
    | field hkey' =>
      exact ⟨fun | .and => h.combination .and | .or => h.combination .or,
        fun q => lockstep_cons (hvw.field key hkey q) (h.fields q), h.blocks⟩

theorem isUndefined_eq_of_alikeCondition {v w : Value} (h : AlikeCondition v w) :
    v.isUndefined = w.isUndefined := by
  cases h with
  | same => rfl
  | scalar hv hw => exact AlikeScalar.isUndefined_eq (.inr ⟨hv, hw⟩)
  | operators => rfl

theorem isUndefined_eq_of_alikeEntry {key : String} {v w : Value} (h : AlikeEntry key v w) :
    v.isUndefined = w.isUndefined := by
  cases h with
  | items => rfl
  | notItems => rfl
  | block _ h => cases h <;> rfl
  | field _ h => exact isUndefined_eq_of_alikeCondition h

/-- Among entries that are alike, a key is given to a defined value in both or in neither. -/
theorem any_eq_of_alikeEntries (key : String) {l m : List (String × Value)}
    (h : AlikeEntries l m) :
    (l.any fun p => p.1 = key && !p.2.isUndefined) =
      m.any fun p => p.1 = key && !p.2.isUndefined := by
  induction l generalizing m with
  | nil =>
    cases h
    rfl
  | cons e l ih =>
    cases h with
    | cons hvw hlm =>
      rw [List.any_cons, List.any_cons, ih hlm, isUndefined_eq_of_alikeEntry hvw]

/-- Entries that are alike both count, or neither does. -/
theorem counts_eq {key : String} {v w : Value} {l m : List (String × Value)}
    (h : AlikeEntry key v w) (hlm : AlikeEntries l m) :
    Value.counts key v l = Value.counts key w m := by
  unfold Value.counts
  rw [any_eq_of_alikeEntries key hlm, isUndefined_eq_of_alikeEntry h]
  cases h with
  | items hkey => rw [hkey]
  | notItems hkey => rw [hkey]
  | block hkey h =>
    rw [hkey]
    cases h <;> rfl
  | field hkey => rw [hkey]

theorem isEmpty_ofItems_eq {l m : List Value} (h : AlikeItems l m) :
    (ofItems l).isEmpty = (ofItems m).isEmpty := by
  cases h <;> rfl

/-- A combinator is compiled in lockstep when its items are. -/
theorem lockstep_combination (c : Combinator) {l m : List Filter} (hempty : l.isEmpty = m.isEmpty)
    (h : Lockstep Eq (compileItems qualifier l) (compileItems qualifier m)) :
    Lockstep Eq (compileCombination qualifier c (.items l))
      (compileCombination qualifier c (.items m)) := by
  rw [compileCombination, compileCombination, hempty]
  have hrest : Lockstep Eq
      (do countOperator; let cs ← compileItems qualifier l; pure [Clause.combined c cs])
      (do countOperator; let cs ← compileItems qualifier m; pure [Clause.combined c cs]) := by
    refine Lockstep.countOperator.bind fun _ _ _ => h.bind fun cs cs' hcs => ?_
    rw [hcs]
    exact .pure rfl
  split
  · exact .throw _
  · exact hrest

mutual

/-- Documents that are alike are compiled in lockstep. -/
theorem lockstep_ofValue : ∀ {v w : Value}, Alike v w → ∀ qualifier,
    Lockstep Eq (compile qualifier (ofValue v)) (compile qualifier (ofValue w))
  | _, _, .notObject (v := v) h, qualifier => by
    cases v with
    | object entries => cases h
    | _ => exact .throw _
  | _, _, .object h, qualifier => by
    rw [ofValue, ofValue]
    exact lockstep_ofParts qualifier (inStep_partsOf h)

theorem lockstep_ofItems : ∀ {l m : List Value}, AlikeItems l m → ∀ qualifier,
    Lockstep Eq (compileItems qualifier (ofItems l)) (compileItems qualifier (ofItems m))
  | _, _, .nil, _ => .pure rfl
  | _, _, .cons h hs, qualifier =>
    lockstep_cons (lockstep_ofValue h qualifier) (lockstep_ofItems hs qualifier)

theorem inStep_of_alikeEntry : ∀ {key : String} {v w : Value}, AlikeEntry key v w →
    EntryInStep key v w
  | _, _, _, .items hkey h => by
    refine ⟨fun c _ qualifier => ?_, fun _ hkey' => ?_, fun _ hkey' => ?_⟩
    · exact lockstep_combination qualifier c (isEmpty_ofItems_eq h) (lockstep_ofItems h qualifier)
    · cases hkey.symm.trans hkey'
    · cases hkey.symm.trans hkey'
  | _, v, _, .notItems hkey hne => by
    refine ⟨fun c _ qualifier => ?_, fun _ hkey' => ?_, fun _ hkey' => ?_⟩
    · cases v with
      | array l => exact absurd rfl (hne l)
      | _ => exact .throw _
    · cases hkey.symm.trans hkey'
    · cases hkey.symm.trans hkey'
  | _, _, _, .block hkey h => by
    refine ⟨fun _ hkey' => ?_, fun _ _ qualifier => lockstep_ofValue h qualifier, fun _ hkey' => ?_⟩
    · cases hkey.symm.trans hkey'
    · cases hkey.symm.trans hkey'
  | _, _, _, .field hkey h => by
    refine ⟨fun _ hkey' => ?_, fun _ hkey' => ?_,
      fun name _ qualifier => lockstep_compileField qualifier name h⟩
    · cases hkey.symm.trans hkey'
    · cases hkey.symm.trans hkey'

theorem inStep_partsOf : ∀ {l m : List (String × Value)}, AlikeEntries l m →
    (partsOf l).InStep (partsOf m)
  | _, _, .nil => ⟨fun | .and => fun _ => .pure rfl | .or => fun _ => .pure rfl,
      fun _ => .pure rfl, fun _ => .pure rfl⟩
  | (key, v) :: l, (_, w) :: m, .cons h hs => by
    have hcounts := counts_eq h hs
    cases hv : Value.counts key v l with
    | false =>
      rw [hv] at hcounts
      rw [partsOf_cons_of_not_counts hv, partsOf_cons_of_not_counts hcounts.symm]
      exact inStep_partsOf hs
    | true =>
      rw [hv] at hcounts
      exact (inStep_partsOf hs).adds (inStep_of_alikeEntry h) (partsOf_cons_of_counts hv)
        (partsOf_cons_of_counts hcounts.symm)

end

end Filter

/-- **No operand becomes text.** Documents that are alike are both refused, with the same error, or
both compile to the same text, with equally many bindings. -/
theorem compile_alike (limits : Limits) {v w : Value} (h : Alike v w) :
    SameOutcome (fun f g => f.text = g.text ∧ f.bindings.length = g.bindings.length)
      (compile limits v) (compile limits w) := by
  have hrun := Filter.lockstep_ofValue h none { limits } { limits } (.refl _)
  unfold compile
  revert hrun
  generalize (Filter.ofValue v).compile none { limits } = r
  generalize (Filter.ofValue w).compile none { limits } = r'
  intro hrun
  cases hrun with
  | ok hclause hc =>
    rw [hclause]
    exact .ok ⟨rfl, hc.bindings⟩
  | error e => exact .error e

/-- Text that tries to go on as SQL compiles as a number does, and a pattern as any other. -/
theorem compile_alike_hostile_text :
    Alike
        (.object [("name", .text "x\" = 1; DROP TABLE t --"), ("$u", .object [("mail", .object
          [("like", .text "%"), ("in", .array [.bool true, .null])])])])
        (.object [("name", .int 1), ("$u", .object [("mail", .object
          [("like", .text "?"), ("in", .array [.text ")", .null])])])]) ∧
      SameOutcome (fun f g => f.text = g.text ∧ f.bindings.length = g.bindings.length)
        (compile {} (.object [("name", .text "x\" = 1; DROP TABLE t --"), ("$u", .object [("mail",
          .object [("like", .text "%"), ("in", .array [.bool true, .null])])])]))
        (compile {} (.object [("name", .int 1), ("$u", .object [("mail", .object
          [("like", .text "?"), ("in", .array [.text ")", .null])])])])) := by
  have hmail : List.Forall₂ AlikeOperator
      [("like", .text "%"), ("in", .array [.bool true, .null])]
      [("like", .text "?"), ("in", .array [.text ")", .null])] := by
    refine .cons ⟨rfl, .inr ⟨.like, rfl, .pattern (by decide)⟩⟩ (.cons ⟨rfl, .inr ⟨.oneOf, rfl, ?_⟩⟩
      .nil)
    exact .list (by decide) (.cons (.inr ⟨.bool _, .text _⟩) (.cons (.inl rfl) .nil))
  have hname : Key.ofText "name" = .field "name" := by decide
  have hblock : Key.ofText "$u" = .block "u" := by decide
  have hfield : Key.ofText "mail" = .field "mail" := by decide
  have hscalar : AlikeCondition (.text "x\" = 1; DROP TABLE t --") (.int 1) :=
    .scalar (.text _) (.int 1)
  have halike := Alike.object (.cons (.field hname hscalar) (.cons
    (.block hblock (.object (.cons (.field hfield (.operators hmail)) .nil))) .nil))
  exact ⟨halike, compile_alike {} halike⟩

end BoundSql
