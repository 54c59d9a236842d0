import BoundSql.Filter.Compile
import BoundSql.Proofs.Compilation.Yield
import BoundSql.Proofs.Double.Bits
import BoundSql.Proofs.Filter.Bound
import BoundSql.Proofs.Filter.Entries
import BoundSql.Proofs.Json.Integer

/-!
# Integers at all places of a filter

An integer can be the condition of a field, the operand of a comparison, or an item of a list. A
`NumberPlace` is one of these places in a filter on the column `x`. The text of the filter is read
as the filter with the value of the number in place (`read_document`), and the filter compiles if
the value can be bound (`compile_place`). `compile_integer_literal` puts the two together for an
integer of any length.
-/

namespace BoundSql

open Json CompileM

/-- A place for a number in a filter on the column `x`. -/
inductive NumberPlace
  /-- The condition of the field. -/
  | condition
  /-- The operand of a comparison. -/
  | operand (op : Operator)
  /-- An item of a list, with integers before and after it. -/
  | item (op : Operator) (before after : List IntegerLiteral)

namespace Json.IntegerLiteral

/-- The text of a literal. -/
def text (l : IntegerLiteral) : String :=
  String.ofList l.chars

/-- A literal as a signed number of 64 bits. -/
def toInt64 (l : IntegerLiteral) : Int64 :=
  Int64.ofInt l.number

end Json.IntegerLiteral

namespace NumberPlace

/-- The text of a filter with a literal in a place. -/
def document (l : IntegerLiteral) : NumberPlace → String
  | condition => "\x7b\"x\": " ++ l.text ++ "\x7d"
  | operand op => "\x7b\"x\": \x7b" ++ quote op.name ++ ": " ++ l.text ++ "\x7d\x7d"
  | item op before after =>
    "\x7b\"x\": \x7b" ++ quote op.name ++ ": [" ++
      ", ".intercalate ((before ++ l :: after).map IntegerLiteral.text) ++ "]\x7d\x7d"

/-- A filter with a value in a place. -/
def value (v : Value) : NumberPlace → Value
  | condition => .object [("x", v)]
  | operand op => .object [("x", .object [(op.name, v)])]
  | item op before after =>
    .object [("x", .object [(op.name, .array (before.map (.int ·.toInt64) ++
      v :: after.map (.int ·.toInt64)))])]

/-- The bindings of a filter with a binding in a place. -/
def bindings (b : Binding) : NumberPlace → List Binding
  | condition | operand _ => [b]
  | item _ before after =>
    before.map (.integer ·.toInt64) ++ b :: after.map (.integer ·.toInt64)

/-- Whether a number can stand in a place under some limits. The other items of a list are to be
integers that can be bound. -/
def Admits (limits : Limits) : NumberPlace → Prop
  | condition => 1 ≤ limits.nestingDepth
  | operand op => op ∈ [.greater, .atLeast, .less, .atMost, .notEqual] ∧
    1 ≤ limits.nestingDepth ∧ 1 ≤ limits.operators
  | item op before after => op ∈ [.oneOf, .noneOf] ∧ (∀ l ∈ before ++ after, l.IsExact) ∧
    1 ≤ limits.nestingDepth ∧ 1 ≤ limits.operators ∧
    before.length + after.length + 1 ≤ limits.listItems

end NumberPlace

/-! ## Compiling a filter on one field -/

section

variable {limits : Limits} {v : Value}

theorem compile_field_of_depth (hdepth : 1 ≤ limits.nestingDepth) (hv : v.isUndefined = false) :
    compile limits (.object [("x", v)]) =
      match Filter.compileField none "x" v { limits, depth := 1 } with
      | .ok c s => .ok { text := "(" ++ c.text ++ ")", bindings := s.bindings }
      | .error e _ => .error e := by
  have hparts : Filter.partsOf [("x", v)] = { fields := [("x", v)] } := by
    have hkey : Key.ofText "x" = .field "x" := rfl
    simp [Filter.partsOf, hv, hkey]
  have hclause : ∀ c : Clause, (ofExcept (Filter.conjunction ([] ++ [] ++ [c] ++ [])) :
      CompileM Clause) = pure c := fun _ => rfl
  have hdeep : ({ limits } : Compilation).depth < limits.nestingDepth := hdepth
  rw [compile, Filter.ofValue, hparts, Filter.ofParts, Filter.compile]
  simp only [Filter.compileCombination, Filter.compileFields, Filter.compileBlocks, pure_bind,
    bind_assoc, hclause, bind_pure]
  cases hrun : Filter.compileField none "x" v { limits, depth := 1 } with
  | ok c s => simp only [nested_run_ok hdeep hrun, Compilation.leave_bindings]
  | error e s => simp only [nested_run_error hdeep hrun]

/-- The column `x`, outside of every block. -/
def columnX : Target where
  qualifier := none
  column := ⟨"x", rfl⟩
  path := none

/-- What is collected when a step succeeds, and the error when it does not. -/
def collected {α : Type} : EStateM.Result Error Compilation α → Except Error (List Binding)
  | .ok _ c => .ok c.bindings
  | .error e _ => .error e

/-- An object with a single operator, which does not ask for presence, collects what its test
does. -/
theorem collected_singleton {op : Operator} (hop : op ≠ .present) {m : CompileM Test}
    (hm : op.compile columnX v = some <$> m) (c : Compilation) :
    collected (Filter.compileField none "x" (.object [(op.name, v)]) c) = collected (m c) := by
  have htarget : Target.ofField none "x" = .ok columnX := rfl
  have hops : Operator.ofEntries [(op.name, v)] = .ok [(op, v)] := by
    rw [Operator.ofEntries, Operator.ofName?_name]
    rfl
  have hpresence : Operator.presence? [(op, v)] = none := by
    simp [Operator.presence?, hop]
  rw [Filter.compileField, htarget, ofExcept_ok, pure_bind, Filter.compileOperators, hops,
    ofExcept_ok, pure_bind]
  simp only [hpresence, Operator.compileAll, hm, map_eq_pure_bind, pure_bind, bind_assoc]
  cases hrun : m c with
  | ok t c' =>
    rw [bind_run_ok hrun]
    rfl
  | error e c' =>
    rw [bind_run_error hrun]
    rfl

theorem countOperator_start (h : 1 ≤ limits.operators) :
    countOperator { limits, depth := 1 } = .ok () { limits, depth := 1, operators := 1 } :=
  if_neg (Nat.not_lt.2 h)

theorem collected_compileScalar (hoperators : 1 ≤ limits.operators) (test : Test) :
    collected (Operator.compileScalar columnX v test { limits, depth := 1 }) =
      v.bind.map fun b => [b] := by
  unfold Operator.compileScalar
  cases v.bind with
  | error e => rfl
  | ok b =>
    rw [ofExcept_ok, pure_bind, bind_run_ok (countOperator_start hoperators)]
    rfl

theorem collected_compileNotEqual (hoperators : 1 ≤ limits.operators)
    (hv : v.isNullish = false) :
    collected (Operator.compileNotEqual columnX v { limits, depth := 1 }) =
      v.bind.map fun b => [b] := by
  rw [Operator.compileNotEqual, bind_run_ok (countOperator_start hoperators), hv]
  cases v.bind <;> rfl

theorem collected_compileList (hoperators : 1 ≤ limits.operators) (op : Operator) {l : List Value}
    (hne : l ≠ []) (hlength : l.length ≤ limits.listItems) (test : Nat → Test) :
    collected (Operator.compileList columnX op (.array l) test { limits, depth := 1 }) =
      Value.bindAll l := by
  have hlist : (Fragment.ofList op l limits.listItems).map Fragment.bindings = Value.bindAll l := by
    rw [Fragment.ofList, if_neg (by simpa using hne), if_neg (Nat.not_lt.2 hlength)]
    cases Value.bindAll l with
    | error e => rfl
    | ok bs => simp [bind, Except.bind, pure, Except.pure, Except.map, Fragment.wrap, Fragment.join,
        Fragment.ofBinding, List.flatMap_map]
  rw [← hlist]
  change collected ((ofExcept (Fragment.ofList op l limits.listItems) >>= _ : CompileM Test) _) = _
  cases Fragment.ofList op l limits.listItems with
  | error e => rfl
  | ok list =>
    rw [ofExcept_ok, pure_bind, bind_run_ok (countOperator_start hoperators)]
    rfl

/-- A field that is to be equal to a number collects its binding. -/
theorem collected_condition (hv : v.shape = .number) :
    collected (Filter.compileField none "x" v { limits, depth := 1 }) =
      v.bind.map fun b => [b] := by
  have hfield : Filter.compileField none "x" v =
      ofExcept v.bind >>= fun b => Clause.tests columnX <$> List.singleton <$>
        columnX.emit .equal [b] := by
    cases v <;> first | rfl | cases hv
  rw [hfield]
  cases v.bind <;> rfl

/-- A comparison with a number collects its binding. -/
theorem collected_comparison {op : Operator}
    (hop : op ∈ [.greater, .atLeast, .less, .atMost, .notEqual]) (hv : v.shape = .number)
    (hoperators : 1 ≤ limits.operators) :
    collected (Filter.compileField none "x" (.object [(op.name, v)]) { limits, depth := 1 }) =
      v.bind.map fun b => [b] := by
  have hdefined : v.isUndefined = false ∧ v.isNullish = false := by
    cases v <;> first | exact ⟨rfl, rfl⟩ | cases hv
  have hskip : ¬ (v.isUndefined = true ∧ op ≠ .notEqual) := by
    rw [hdefined.1]
    exact fun h => nomatch h.1
  simp only [List.mem_cons, List.not_mem_nil, or_false] at hop
  rcases hop with rfl | rfl | rfl | rfl | rfl
  · rw [collected_singleton (by decide) (if_neg hskip), collected_compileScalar hoperators]
  · rw [collected_singleton (by decide) (if_neg hskip), collected_compileScalar hoperators]
  · rw [collected_singleton (by decide) (if_neg hskip), collected_compileScalar hoperators]
  · rw [collected_singleton (by decide) (if_neg hskip), collected_compileScalar hoperators]
  · rw [collected_singleton (by decide) (if_neg hskip),
      collected_compileNotEqual hoperators hdefined.2]

/-- A list collects the bindings of its items. -/
theorem collected_membership {op : Operator} (hop : op ∈ [.oneOf, .noneOf])
    (hoperators : 1 ≤ limits.operators) {l : List Value} (hne : l ≠ [])
    (hlength : l.length ≤ limits.listItems) :
    collected (Filter.compileField none "x" (.object [(op.name, .array l)])
      { limits, depth := 1 }) = Value.bindAll l := by
  simp only [List.mem_cons, List.not_mem_nil, or_false] at hop
  rcases hop with rfl | rfl
  · rw [collected_singleton (by decide) rfl, collected_compileList hoperators _ hne hlength]
  · rw [collected_singleton (by decide) rfl, collected_compileList hoperators _ hne hlength]

/-- A list of integers with one more value in it is bound if the value is. -/
theorem bindAll_integers (v : Value) (before after : List Int64) :
    Value.bindAll (before.map .int ++ v :: after.map .int) =
      v.bind.map fun b => before.map .integer ++ b :: after.map .integer := by
  have hafter : Value.bindAll (after.map .int) = .ok (after.map .integer) := by
    induction after with
    | nil => rfl
    | cons n l ih =>
      rw [List.map_cons, Value.bindAll, ih]
      rfl
  induction before with
  | nil =>
    rw [List.map_nil, List.nil_append, Value.bindAll, hafter]
    cases v.bind <;> rfl
  | cons n l ih =>
    rw [List.map_cons, List.cons_append, Value.bindAll, ih]
    cases v.bind <;> rfl

/-- **A filter with a number in place** is compiled exactly if the number can be bound. -/
theorem compile_place {place : NumberPlace} (hplace : place.Admits limits)
    (hv : v.shape = .number) :
    (compile limits (place.value v)).map Fragment.bindings =
      v.bind.map fun b => place.bindings b := by
  have hcollected : ∀ w : Value, w.isUndefined = false → 1 ≤ limits.nestingDepth →
      (compile limits (.object [("x", w)])).map Fragment.bindings =
        collected (Filter.compileField none "x" w { limits, depth := 1 }) := by
    intro w hw hdepth
    rw [compile_field_of_depth hdepth hw]
    cases Filter.compileField none "x" w { limits, depth := 1 } <;> rfl
  cases place with
  | condition =>
    have hundefined : v.isUndefined = false := by
      cases v <;> first | rfl | cases hv
    rw [NumberPlace.value, hcollected v hundefined hplace, collected_condition hv]
    rfl
  | operand op =>
    obtain ⟨hop, hdepth, hoperators⟩ := hplace
    rw [NumberPlace.value, hcollected _ rfl hdepth, collected_comparison hop hv hoperators]
    rfl
  | item op before after =>
    obtain ⟨hop, -, hdepth, hoperators, hlength⟩ := hplace
    rw [NumberPlace.value, hcollected _ rfl hdepth, collected_membership hop hoperators]
    · have hbind := bindAll_integers v (before.map (·.toInt64)) (after.map (·.toInt64))
      simp only [List.map_map] at hbind
      exact hbind
    · simp
    · simp only [List.length_append, List.length_map, List.length_cons]
      omega

end

/-! ## Reading a filter with an integer in place -/

namespace NumberPlace

variable {l : IntegerLiteral} {v : Value} {r s : List Char} {ts : List Token}

theorem cuts_field (h : Cuts r s ts) :
    Cuts r ("\x7b\"x\": ".toList ++ s) (.openObject :: .text "x" :: .colon :: ts) := by
  have hfield : "\x7b\"x\": ".toList ++ s = '\x7b' :: ((quote "x").toList ++ ':' :: ' ' :: s) := rfl
  rw [hfield]
  exact .punctuation rfl (.text (.punctuation rfl (.blank rfl h)))

theorem cuts_operator (op : Operator) (h : Cuts r s ts) :
    Cuts r ("\x7b\"x\": ".toList ++ '\x7b' :: ((quote op.name).toList ++ ':' :: ' ' :: s))
      (.openObject :: .text "x" :: .colon :: .openObject :: .text op.name :: .colon :: ts) :=
  cuts_field (.punctuation rfl (.text (.punctuation rfl (.blank rfl h))))

theorem toList_text (l : IntegerLiteral) : l.text.toList = l.chars :=
  String.toList_ofList

theorem tokensOf_number (hv : v.shape = .number) : tokensOf v = [.scalar v] := by
  cases v <;> first | rfl | cases hv

theorem writes_exact (h : l.IsExact) : Writes l.text.toList (.int l.toInt64) := by
  rw [toList_text]
  exact l.writes_chars h

theorem readable_number (hv : v.shape = .number) (depth : Nat) : Readable depth v := by
  cases v <;> trivial

theorem readable_items (hv : v.shape = .number) (depth : Nat) (before after : List IntegerLiteral) :
    ReadableItems depth (before.map (.int ·.toInt64) ++ v :: after.map (.int ·.toInt64)) := by
  have hints : ∀ ls : List IntegerLiteral, ∀ w ∈ ls.map (.int ·.toInt64), Readable depth w :=
    fun ls => List.forall_mem_map.2 fun _ _ => trivial
  rw [readableItems_iff, List.forall_mem_append, List.forall_mem_cons]
  exact ⟨hints before, readable_number hv depth, hints after⟩

/-- The items of a list are written one after the other. -/
theorem writes_items {before after : List IntegerLiteral}
    (hexact : ∀ k ∈ before ++ after, k.IsExact) (hl : Writes l.text.toList v) :
    Writes ('[' :: ((", ".intercalate ((before ++ l :: after).map IntegerLiteral.text)).toList ++
      [']'])) (.array (before.map (.int ·.toInt64) ++ v :: after.map (.int ·.toInt64))) := by
  -- each item is paired with its value, since the one in place may have any
  have hpairs : ∀ p ∈ before.map (fun k => (k, Value.int k.toInt64)) ++ (l, v) ::
      after.map (fun k => (k, Value.int k.toInt64)), Writes p.1.text.toList p.2 := by
    simp only [List.mem_append, List.mem_cons, List.mem_map]
    rintro p (⟨k, hk, rfl⟩ | rfl | ⟨k, hk, rfl⟩)
    · exact writes_exact (hexact k (List.mem_append_left _ hk))
    · exact hl
    · exact writes_exact (hexact k (List.mem_append_right _ hk))
  have hitems := @writes_array (IntegerLiteral × Value) (fun p => p.1.text) Prod.snd ", " [' '] rfl
    rfl [] [] rfl rfl _ (by simp) hpairs
  simpa [Function.comp_def] using hitems

/-- **A filter with an integer in place is read from its text.** -/
theorem read_document {place : NumberPlace} {limits : Limits} (hplace : place.Admits limits)
    (hl : scalarOfWord l.chars = .ok v) (hv : v.shape = .number) :
    read (place.document l) = .ok (place.value v) := by
  have hwrites : Writes l.text.toList v := by
    rw [toList_text]
    exact writes_word l.isWordChar_of_mem hl (tokensOf_number hv)
  cases place with
  | condition =>
    refine read_of_cuts ?_ ⟨by decide, List.nodup_singleton _, readable_number hv 1, trivial⟩
    rw [document, String.toList_append, String.toList_append, List.append_assoc]
    exact cuts_field (hwrites _ _ _ (endsWord_cons rfl []) (.punctuation rfl .rest))
  | operand op =>
    refine read_of_cuts ?_ ⟨by decide, List.nodup_singleton _, ⟨by decide, List.nodup_singleton _,
      readable_number hv 2, trivial⟩, trivial⟩
    have hend : Cuts [] ['\x7d', '\x7d'] [.closeObject, .closeObject] :=
      .punctuation rfl (.punctuation rfl .rest)
    have hcuts := cuts_operator op (hwrites _ _ _ (endsWord_cons rfl ['\x7d']) hend)
    simpa [document, value, tokensOf, moreEntries] using hcuts
  | item op before after =>
    obtain ⟨-, hexact, -⟩ := hplace
    refine read_of_cuts ?_ ⟨by decide, List.nodup_singleton _, ⟨by decide, List.nodup_singleton _,
      ⟨by decide, readable_items hv 3 before after⟩, trivial⟩, trivial⟩
    have hend : Cuts [] ['\x7d', '\x7d'] [.closeObject, .closeObject] :=
      .punctuation rfl (.punctuation rfl .rest)
    have hitems := writes_items hexact hwrites _ _ _ (endsWord_cons rfl ['\x7d']) hend
    have hcuts := cuts_operator op hitems
    simpa [document, value, tokensOf, moreEntries] using hcuts

/-- The integers of a list in front of one of its items are cut off. -/
theorem exists_cuts_items {before : List IntegerLiteral} (hexact : ∀ k ∈ before, k.IsExact)
    (l : IntegerLiteral) (after : List IntegerLiteral) (s : List Char) :
    ∃ t ts, EndsWord t ∧ Cuts (l.chars ++ t)
      ((", ".intercalate ((before ++ l :: after).map IntegerLiteral.text)).toList ++ ']' :: s)
      ts := by
  induction before with
  | nil =>
    rw [List.nil_append, List.map_cons]
    cases after with
    | nil =>
      refine ⟨']' :: s, [], endsWord_cons rfl s, ?_⟩
      rw [List.map_nil, String.intercalate_singleton, toList_text]
      exact .rest
    | cons k after =>
      refine ⟨',' :: ' ' :: ((", ".intercalate ((k :: after).map IntegerLiteral.text)).toList ++
        ']' :: s), [], endsWord_cons rfl _, ?_⟩
      simp only [List.map_cons, String.intercalate_cons_cons, String.toList_append, toList_text,
        List.append_assoc]
      exact .rest
  | cons k before ih =>
    rw [List.forall_mem_cons] at hexact
    obtain ⟨t, ts, ht, hcuts⟩ := ih hexact.2
    refine ⟨t, .scalar (.int k.toInt64) :: .comma :: ts, ht, ?_⟩
    obtain ⟨m, ms, hms⟩ : ∃ m ms, before ++ l :: after = m :: ms :=
      List.exists_cons_of_ne_nil (List.append_ne_nil_of_right_ne_nil _ (List.cons_ne_nil _ _))
    rw [hms, List.map_cons] at hcuts
    rw [List.cons_append, hms, List.map_cons, List.map_cons, String.intercalate_cons_cons,
      String.toList_append, String.toList_append, List.append_assoc, List.append_assoc]
    exact writes_exact hexact.1 _ _ _ (endsWord_cons rfl _) (.punctuation rfl (.blank rfl hcuts))

/-- A filter with an integer in place that stands for nothing cannot be read. -/
theorem read_document_error {place : NumberPlace} {limits : Limits} (hplace : place.Admits limits)
    {e : Fault} (hl : scalarOfWord l.chars = .error e) : read (place.document l) = .error e := by
  have hne : l.chars ≠ [] := by
    rw [IntegerLiteral.chars]
    split
    · exact List.cons_ne_nil _ _
    · exact l.digits_ne_nil
  have hread : ∀ t s ts, EndsWord t → (place.document l).toList = s → Cuts (l.chars ++ t) s ts →
      read (place.document l) = .error e := by
    rintro t s ts ht rfl h
    rw [Json.read, tokens_of_bad_word hne l.isWordChar_of_mem hl ht h]
  cases place with
  | condition =>
    have hcuts := cuts_field (.rest : Cuts (l.chars ++ ['\x7d']) _ [])
    exact hread _ _ _ (endsWord_cons rfl []) (by simp [document, toList_text]) hcuts
  | operand op =>
    have hcuts := cuts_operator op (.rest : Cuts (l.chars ++ ['\x7d', '\x7d']) _ [])
    exact hread _ _ _ (endsWord_cons rfl _) (by simp [document, toList_text]) hcuts
  | item op before after =>
    obtain ⟨-, hexact, -⟩ := hplace
    obtain ⟨t, ts, ht, hitems⟩ := exists_cuts_items
      (fun k hk => hexact k (List.mem_append_left _ hk)) l after ['\x7d', '\x7d']
    have hcuts := cuts_operator op (.punctuation rfl hitems : Cuts _ ('[' :: _) (.openArray :: ts))
    exact hread _ _ _ ht (by simp [document]) hcuts

end NumberPlace

/-- A filter with an integer in place that is rounded binds the double. -/
theorem compile_rounded {l : IntegerLiteral} {place : NumberPlace} {limits : Limits}
    (hplace : place.Admits limits) (hexact : ¬ l.IsExact)
    (hunsigned : ¬ (2 ^ 63 ≤ l.number ∧ l.number < 2 ^ 64)) {x : Double}
    (hx : Double.ofDecimal? l.negative l.size 0 = some x) :
    ∃ v f, read (place.document l) = .ok v ∧ compile limits v = .ok f ∧
      f.bindings = place.bindings (.real x) := by
  have hword := l.scalarOfWord_rounded hexact hunsigned
  rw [hx] at hword
  have hbind : (Value.float x).bind = .ok (.real x) := by
    rw [Value.bind, Double.isFinite_iff_nonFinite?_eq_none.1 (Double.isFinite_ofDecimal? hx)]
  have hcompile := compile_place (v := .float x) hplace rfl
  rw [hbind] at hcompile
  obtain ⟨f, hf, hbindings⟩ := map_eq_ok_iff.1 hcompile
  exact ⟨_, f, NumberPlace.read_document hplace hword rfl, hf, hbindings⟩

/-- **An integer of any length, at any place of a filter.** If 64 bits with a sign hold it, it is
bound as it is. If it is larger than that but 64 bits without a sign hold it, it is refused by name.
Any other integer, a zero with a minus sign included, becomes the nearest double and is bound as
such, unless no double is large enough for it: then the filter cannot be read. -/
theorem compile_integer_literal (l : IntegerLiteral) {place : NumberPlace} {limits : Limits}
    (hplace : place.Admits limits) :
    (l.IsExact → ∃ v f, read (place.document l) = .ok v ∧ compile limits v = .ok f ∧
      f.bindings = place.bindings (.integer l.toInt64) ∧ l.toInt64.toInt = l.number) ∧
    (2 ^ 63 ≤ l.number → l.number < 2 ^ 64 → ∃ v n, read (place.document l) = .ok v ∧
      compile limits v = .error (.integerOutOfRange n) ∧ n.toNat = l.number) ∧
    (¬ l.IsExact → ¬ (2 ^ 63 ≤ l.number ∧ l.number < 2 ^ 64) →
      match Double.ofDecimal? l.negative l.size 0 with
      | none => read (place.document l) = .error .numberTooLarge
      | some x => ∃ v f, read (place.document l) = .ok v ∧ compile limits v = .ok f ∧
        f.bindings = place.bindings (.real x)) := by
  refine ⟨fun h => ?_, fun hlow hhigh => ?_, fun hexact hunsigned => ?_⟩
  · have hcompile := compile_place (v := .int l.toInt64) hplace rfl
    obtain ⟨f, hf, hbindings⟩ := map_eq_ok_iff.1 hcompile
    exact ⟨_, f, NumberPlace.read_document hplace (l.scalarOfWord_exact h) rfl, hf, hbindings,
      Int64.toInt_ofInt_of_le h.low h.high⟩
  · obtain ⟨n, hword, hn⟩ := l.scalarOfWord_unsigned hlow hhigh
    have hcompile := compile_place (v := .bigInt n) hplace rfl
    exact ⟨_, n, NumberPlace.read_document hplace hword rfl, map_eq_error_iff.1 hcompile, hn⟩
  · cases hx : Double.ofDecimal? l.negative l.size 0 with
    | none =>
      have hword := l.scalarOfWord_rounded hexact hunsigned
      rw [hx] at hword
      exact NumberPlace.read_document_error hplace hword
    | some x => exact compile_rounded hplace hexact hunsigned hx

/-- Three integers at three places: the least one that is bound, the greatest one that is refused by
name, and a zero with a sign, which becomes a double. -/
theorem compile_integer_literal_at_bounds :
    (∃ v f, read "\x7b\"x\": \x7b\"ne\": -9223372036854775808\x7d\x7d" = .ok v ∧
      compile {} v = .ok f ∧ f.bindings = [.integer Int64.minValue]) ∧
    (∃ v n, read "\x7b\"x\": \x7b\"in\": [7, 18446744073709551615]\x7d\x7d" = .ok v ∧
      compile {} v = .error (.integerOutOfRange n) ∧ n.toNat = 18446744073709551615) ∧
    ∃ v f, read "\x7b\"x\": -0\x7d" = .ok v ∧ compile {} v = .ok f ∧
      f.bindings = [.real ⟨0x8000000000000000⟩] := by
  have hseven : ∀ l ∈ [IntegerLiteral.ofInt 7] ++ [], l.IsExact := by
    rintro l (_ | ⟨_, ⟨⟩⟩)
    exact ⟨by decide, by decide, by decide⟩
  have hleast := @compile_integer_literal (.ofInt (-2 ^ 63)) (.operand .notEqual) {}
    ⟨by decide, by decide, by decide⟩
  have hgreatest := @compile_integer_literal (.ofInt (2 ^ 64 - 1)) (.item .oneOf [.ofInt 7] []) {}
    ⟨by decide, hseven, by decide, by decide, by decide⟩
  have hzero := @compile_integer_literal ⟨true, ['0'], List.all_eq_true.1 rfl, rfl⟩ .condition {}
    (by decide : 1 ≤ 10)
  obtain ⟨v, f, hread, hf, hbindings, -⟩ := hleast.1 ⟨by decide, by decide, by decide⟩
  obtain ⟨v', n, hread', hf', hn⟩ := hgreatest.2.1 (by decide) (by decide)
  have hnumber : (IntegerLiteral.ofInt (2 ^ 64 - 1)).number = 18446744073709551615 := by decide
  rw [hnumber] at hn
  exact ⟨⟨v, f, hread, hf, hbindings⟩, ⟨v', n, hread', hf', Int.ofNat.inj hn⟩,
    hzero.2.2 (fun h => h.no_negative_zero rfl rfl) (by decide)⟩

/-- An integer beyond 64 bits is rounded: what is bound is another number. -/
theorem large_integer_is_rounded :
    ∃ v f, read "\x7b\"x\": 18446744073709551617\x7d" = .ok v ∧ compile {} v = .ok f ∧
      f.bindings = [.real ⟨0x43f0000000000000⟩] ∧
      (Double.mk 0x43f0000000000000).magnitude = 18446744073709551616 * Nat.pow 2 1074 := by
  obtain ⟨v, f, hread, hf, hbindings⟩ := @compile_rounded (.ofInt 18446744073709551617)
    .condition {} (by decide : 1 ≤ 10) (fun h => absurd h.high (by decide)) (by decide)
    ⟨0x43f0000000000000⟩ (by decide +kernel)
  exact ⟨v, f, hread, hf, hbindings, by decide +kernel⟩

end BoundSql
