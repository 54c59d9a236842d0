import BoundSql.Proofs.Filter.Turn

/-!
# The normal form of a filter document

A filter document can be written in many ways. `Value.normal` writes it in one: of its filter
objects it keeps the entries that count, puts what gives `"and"` and what gives `"or"` in front of
the fields and these in front of the alias blocks, and leaves out the operands that ask for nothing.
It does so at all places where a filter object or an operator object can stand.

`compile_normal_form` says that a document compiles as its normal form does, refusals included, and
that a normal form is its own.
-/

namespace BoundSql

open CompileM

/-! ## Operands that ask for nothing -/

namespace Operator

/-- Whether an operator asks for nothing because its operand is undefined. A difference can be asked
of what is undefined. -/
def idles (op : Operator) (operand : Value) : Bool :=
  operand.isUndefined && op ≠ notEqual

/-- The entries of an operator object without those that ask for nothing. A key that names no
operator is kept, since it is refused whatever its operand is. -/
def busyEntries (entries : List (String × Value)) : List (String × Value) :=
  entries.filter fun e => !(ofName? e.1).any fun op => op.idles e.2

/-- The operators of an operator object without those that ask for nothing. -/
def busy (ops : List (Operator × Value)) : List (Operator × Value) :=
  ops.filter fun p => !p.1.idles p.2

variable {target : Target} {op : Operator} {operand : Value}

theorem busy_cons (op : Operator) (operand : Value) (ops : List (Operator × Value)) :
    busy ((op, operand) :: ops) =
      if op.idles operand then busy ops else (op, operand) :: busy ops := by
  rw [busy, List.filter_cons, ← busy]
  cases op.idles operand <;> rfl

theorem ofEntries_cons {key : String} (h : ofName? key = some op) (operand : Value)
    (l : List (String × Value)) :
    ofEntries ((key, operand) :: l) = (ofEntries l).map fun ops => (op, operand) :: ops := by
  rw [ofEntries, h]
  cases ofEntries l <;> rfl

theorem ofEntries_busyEntries (entries : List (String × Value)) :
    ofEntries (busyEntries entries) = (ofEntries entries).map busy := by
  induction entries with
  | nil => rfl
  | cons e l ih =>
    obtain ⟨key, operand⟩ := e
    rw [busyEntries, List.filter_cons, ← busyEntries]
    cases hkey : ofName? key with
    | none =>
      rw [Option.any_none, if_pos (by decide), ofEntries, ofEntries, hkey]
      rfl
    | some op =>
      rw [Option.any_some, ofEntries_cons hkey]
      cases hidle : op.idles operand with
      | true =>
        rw [if_neg (by decide), ih]
        cases ofEntries l <;> simp [Except.map, busy_cons, hidle]
      | false =>
        rw [if_pos (by decide), ofEntries_cons hkey, ih]
        cases ofEntries l <;> simp [Except.map, busy_cons, hidle]

@[simp] theorem presence?_busy (ops : List (Operator × Value)) :
    presence? (busy ops) = presence? ops := by
  rw [presence?, busy, List.find?_filter, presence?]
  congr 2
  funext p
  cases hu : p.2.isUndefined <;> simp [idles, hu]

theorem compile_of_idles (h : op.idles operand = true) : compile target op operand = pure none := by
  rw [idles, Bool.and_eq_true, decide_eq_true_eq] at h
  unfold compile
  exact if_pos h

@[simp] theorem compileAll_busy (target : Target) (ops : List (Operator × Value)) :
    compileAll target (busy ops) = compileAll target ops := by
  induction ops with
  | nil => rfl
  | cons p l ih =>
    obtain ⟨op, operand⟩ := p
    rw [busy_cons, compileAll]
    cases hidle : op.idles operand with
    | true => simp [compile_of_idles hidle, ih]
    | false => simp [compileAll, ih]

end Operator

namespace Filter

theorem compileOperators_busyEntries (field : String) (target : Target)
    (entries : List (String × Value)) :
    compileOperators field target (Operator.busyEntries entries) =
      compileOperators field target entries := by
  rw [compileOperators, compileOperators, Operator.ofEntries_busyEntries]
  cases Operator.ofEntries entries with
  | error e => rfl
  | ok ops =>
    simp only [Except.map, ofExcept, pure_bind, Operator.presence?_busy, Operator.compileAll_busy]

end Filter

/-! ## The normal form -/

/-- What a value is there for in a filter document. -/
inductive Role
  | filter
  /-- To be taken together by a combinator. -/
  | given
  /-- To be asked of a field. -/
  | condition
  deriving DecidableEq, Repr

/-- What the value of a key is there for. -/
def Key.role : Key → Role
  | .combinator _ => .given
  | .block _ => .filter
  | .field _ => .condition

namespace Value

mutual

/-- The normal form of a value in its role. -/
def normalAs : Role → Value → Value
  | .filter, object entries => object (arranged (normalEntries entries))
  | .given, array items => array (normalItems items)
  | .condition, object entries => object (Operator.busyEntries entries)
  | _, v => v

/-- The normal forms of some filter documents. -/
def normalItems : List Value → List Value
  | [] => []
  | v :: l => normalAs .filter v :: normalItems l

/-- The entries of a filter object that count, with their values in normal form. -/
def normalEntries : List (String × Value) → List (String × Value)
  | [] => []
  | (key, v) :: l =>
    if counts key v l then (key, normalAs (Key.ofText key).role v) :: normalEntries l
    else normalEntries l

end

/-- The normal form of a filter document. -/
def normal (v : Value) : Value :=
  v.normalAs .filter

@[simp] theorem isUndefined_normalAs (r : Role) (v : Value) :
    (v.normalAs r).isUndefined = v.isUndefined := by
  cases r <;> cases v <;> rfl

@[simp] theorem isObject_normalAs (r : Role) (v : Value) :
    (v.normalAs r).isObject = v.isObject := by
  cases r <;> cases v <;> rfl

@[simp] theorem isSupplied_normalAs (key : String) (r : Role) (v : Value) :
    isSupplied key (v.normalAs r) = isSupplied key v := by
  rw [isSupplied, isSupplied, isUndefined_normalAs, isObject_normalAs]

theorem normalEntries_eq_map (entries : List (String × Value)) :
    normalEntries entries =
      (counted entries).map fun e => (e.1, e.2.normalAs (Key.ofText e.1).role) := by
  induction entries with
  | nil => rfl
  | cons e l ih =>
    obtain ⟨key, v⟩ := e
    rw [normalEntries, counted, ih]
    split <;> rfl

end Value

/-! ## Documents compile as their normal forms -/

namespace Filter

/-- What a combinator was given, as far as its clauses go. -/
structure SameGiven (c : Combinator) (x y : Combination Filter) : Prop where
  absent_iff : x = .absent ↔ y = .absent
  compile_eq (q : Option Identifier) : compileCombination q c x = compileCombination q c y

/-- Parts of filter objects that have the same clauses. -/
structure SameParts (p p' : Parts) : Prop where
  conj : SameGiven .and p.conj p'.conj
  disj : SameGiven .or p.disj p'.disj
  fields_eq (q : Option Identifier) : compileFields q p.fields = compileFields q p'.fields
  blocks_eq (q : Option Identifier) : compileBlocks q p.blocks = compileBlocks q p'.blocks

theorem SameGiven.orElse {c : Combinator} {x y x' y' : Combination Filter} (h : SameGiven c x y)
    (h' : SameGiven c x' y') : SameGiven c (x.orElse x') (y.orElse y') := by
  by_cases hx : x = .absent
  · have hy := h.absent_iff.1 hx
    rw [hx, hy]
    exact h'
  · have hy : y ≠ .absent := fun hy => hx (h.absent_iff.2 hy)
    rw [orElse_of_ne_absent hx, orElse_of_ne_absent hy]
    exact h

theorem SameParts.refl (p : Parts) : SameParts p p where
  conj := ⟨Iff.rfl, fun _ => rfl⟩
  disj := ⟨Iff.rfl, fun _ => rfl⟩
  fields_eq _ := rfl
  blocks_eq _ := rfl

theorem SameParts.compile_eq {p p' : Parts} (h : SameParts p p') (q : Option Identifier) :
    compile q (ofParts p) = compile q (ofParts p') := by
  rw [ofParts, ofParts, compile, compile, h.conj.compile_eq, h.disj.compile_eq, h.fields_eq,
    h.blocks_eq]

theorem SameParts.given {p p' : Parts} (h : SameParts p p') {c : Combinator}
    {x y : Combination Filter} (hxy : SameGiven c x y) :
    SameParts (p.giving c ((p.combination c).orElse x))
      (p'.giving c ((p'.combination c).orElse y)) := by
  cases c with
  | and => exact { h with conj := h.conj.orElse hxy }
  | or => exact { h with disj := h.disj.orElse hxy }

theorem SameParts.field {p p' : Parts} (h : SameParts p p') (name : String) {v w : Value}
    (hvw : ∀ q, compileField q name v = compileField q name w) :
    SameParts { p with fields := (name, v) :: p.fields }
      { p' with fields := (name, w) :: p'.fields } :=
  { h with fields_eq := fun q => by rw [compileFields, compileFields, hvw, h.fields_eq] }

theorem SameParts.block {p p' : Parts} (h : SameParts p p') (name : String) {f g : Filter}
    (hfg : ∀ q, compile q f = compile q g) :
    SameParts { p with blocks := (name, f) :: p.blocks }
      { p' with blocks := (name, g) :: p'.blocks } :=
  { h with blocks_eq := fun q => by simp only [compileBlocks, hfg, h.blocks_eq] }

theorem compileField_normalAs (q : Option Identifier) (field : String) (v : Value) :
    compileField q field (v.normalAs .condition) = compileField q field v := by
  cases v with
  | object entries =>
    simp only [Value.normalAs, compileField, compileOperators_busyEntries]
  | _ => rfl

mutual

/-- A document compiles as its normal form. -/
theorem compile_normalAs (v : Value) (q : Option Identifier) :
    compile q (ofValue (v.normalAs .filter)) = compile q (ofValue v) := by
  cases v with
  | object entries =>
    rw [Value.normalAs, ofValue, ofValue, partsOf_arranged]
    exact (sameParts_partsOf entries).compile_eq q
  | _ => rfl

theorem sameGiven_combinationOf (c : Combinator) (v : Value) :
    SameGiven c (combinationOf (v.normalAs .given)) (combinationOf v) := by
  refine ⟨?_, fun q => ?_⟩
  · simp only [combinationOf_ne_absent]
  · cases v with
    | array items =>
      rw [Value.normalAs, combinationOf, combinationOf, compileCombination, compileCombination,
        compileItems_normalItems items]
      cases items <;> rfl
    | _ => rfl

theorem compileItems_normalItems (items : List Value) (q : Option Identifier) :
    compileItems q (ofItems (Value.normalItems items)) = compileItems q (ofItems items) := by
  cases items with
  | nil => rfl
  | cons v l =>
    rw [Value.normalItems, ofItems, ofItems, compileItems, compileItems, compile_normalAs v,
      compileItems_normalItems l]

theorem sameParts_partsOf (entries : List (String × Value)) :
    SameParts (partsOf (Value.normalEntries entries)) (partsOf entries) := by
  cases entries with
  | nil => exact .refl _
  | cons e l =>
    obtain ⟨key, v⟩ := e
    have hl := sameParts_partsOf l
    have hgiven := fun c => sameGiven_combinationOf c v
    have hv := compile_normalAs v
    rw [Value.normalEntries]
    split
    -- Both parts take up the value, whatever stands among them: there is no need that it counts.
    · rw [partsOf, partsOf, Value.isUndefined_normalAs]
      cases v.isUndefined with
      | true => exact hl
      | false =>
        cases Key.ofText key with
        | combinator c =>
          cases c with
          | and => exact hl.given (hgiven .and)
          | or => exact hl.given (hgiven .or)
        | block name =>
          cases v with
          | object entries =>
            rw [Value.normalAs, ofValue, ofValue] at hv
            exact hl.block name hv
          | _ => exact hl
        | field name => exact hl.field name fun q => compileField_normalAs q name v
    -- An entry that does not count leaves the parts as they are.
    · next h =>
      rw [partsOf_cons_of_not_counts (Bool.eq_false_iff.2 h)]
      exact hl

end

end Filter

/-! ## Normal forms are their own -/

namespace Operator

@[simp] theorem busyEntries_busyEntries (entries : List (String × Value)) :
    busyEntries (busyEntries entries) = busyEntries entries := by
  simp only [busyEntries, List.filter_filter, Bool.and_self]

end Operator

namespace Value

/-- Of the entries that give a combinator at most one counts. -/
theorem given_counted_le (c : Combinator) (entries : List (String × Value)) :
    given c (counted entries) ≤ 1 := by
  induction entries with
  | nil => exact Nat.zero_le 1
  | cons e l ih =>
    obtain ⟨key, v⟩ := e
    rw [counted]
    split
    · next h =>
      rw [given_cons]
      split
      · next hc =>
        rw [Bool.and_eq_true, decide_eq_true_eq] at hc
        have hlater : given c l = 0 := (counts_iff.1 h).2 c hc.1
        have hle : given c (counted l) ≤ given c l :=
          ((counted_sublist l).trans List.filter_sublist).countP_le
        omega
      · exact ih
    · exact ih

theorem given_normalEntries (c : Combinator) (entries : List (String × Value)) :
    given c (normalEntries entries) = given c (counted entries) := by
  rw [normalEntries_eq_map, given, List.countP_map, given]
  refine List.countP_congr fun e _ => ?_
  simp only [Function.comp, isUndefined_normalAs]

theorem isSupplied_of_mem_normalEntries {e : String × Value} {entries : List (String × Value)}
    (h : e ∈ normalEntries entries) : isSupplied e.1 e.2 = true := by
  rw [normalEntries_eq_map] at h
  obtain ⟨e', he', rfl⟩ := List.mem_map.1 h
  have hsupplied := List.of_mem_filter ((counted_sublist entries).mem he')
  rw [isSupplied_normalAs]
  exact hsupplied

/-- All entries of a normal form count. -/
theorem counted_arranged (entries : List (String × Value)) :
    counted (arranged (normalEntries entries)) = arranged (normalEntries entries) := by
  have hle : ∀ c, given c (arranged (normalEntries entries)) ≤ 1 := fun c => by
    rw [given_arranged, given_normalEntries]
    exact given_counted_le c entries
  rw [counted_eq_supplied_iff.2 hle, supplied, List.filter_eq_self]
  exact fun e he => isSupplied_of_mem_normalEntries (mem_of_mem_arranged he)

mutual

/-- A normal form is its own. -/
@[simp] theorem normalAs_normalAs (r : Role) (v : Value) :
    (v.normalAs r).normalAs r = v.normalAs r := by
  cases r with
  | filter =>
    cases v with
    | object entries =>
      -- All entries are kept the second time, with values that are in normal form already.
      have hfixed : normalEntries (arranged (normalEntries entries)) =
          arranged (normalEntries entries) := by
        rw [normalEntries_eq_map, counted_arranged]
        refine (List.map_congr_left fun e he => ?_).trans (List.map_id _)
        exact Prod.ext rfl (normalAs_of_mem_normalEntries entries e (mem_of_mem_arranged he))
      rw [normalAs, normalAs, hfixed, arranged_arranged]
    | _ => rfl
  | given =>
    cases v with
    | array items => rw [normalAs, normalAs, normalItems_normalItems items]
    | _ => rfl
  | condition =>
    cases v with
    | object entries => rw [normalAs, normalAs, Operator.busyEntries_busyEntries]
    | _ => rfl

@[simp] theorem normalItems_normalItems (items : List Value) :
    normalItems (normalItems items) = normalItems items := by
  cases items with
  | nil => rfl
  | cons v l =>
    rw [normalItems, normalItems, normalAs_normalAs .filter v, normalItems_normalItems l]

theorem normalAs_of_mem_normalEntries (entries : List (String × Value)) (e : String × Value)
    (h : e ∈ normalEntries entries) : e.2.normalAs (Key.ofText e.1).role = e.2 := by
  cases entries with
  | nil => cases h
  | cons e' l =>
    obtain ⟨key, v⟩ := e'
    rw [normalEntries] at h
    split at h
    · rcases List.mem_cons.1 h with rfl | h
      · exact normalAs_normalAs _ v
      · exact normalAs_of_mem_normalEntries l e h
    · exact normalAs_of_mem_normalEntries l e h

end

end Value

/-- **A document compiles as its normal form**, to the same text and bindings or to the same
refusal, and a normal form is its own. -/
theorem compile_normal_form (limits : Limits) (v : Value) :
    compile limits v.normal = compile limits v ∧ v.normal.normal = v.normal := by
  refine ⟨?_, Value.normalAs_normalAs .filter v⟩
  rw [compile, compile, Value.normal, Filter.compile_normalAs]

-- The second `"and"` counts. What is left is put in order, at all depths.
example : (Value.object [("$t", .object [("x", .undefined), ("y", .null)]), ("$u", .int 1),
      ("a", .object [("gt", .undefined), ("ne", .undefined), ("no", .undefined)]),
      ("and", .array []), ("and", .array [.object [("b", .int 1), ("or", .null)]]),
      ("and", .undefined)]).normal =
    .object [("and", .array [.object [("or", .null), ("b", .int 1)]]),
      ("a", .object [("ne", .undefined), ("no", .undefined)]),
      ("$t", .object [("y", .null)])] := rfl

end BoundSql
