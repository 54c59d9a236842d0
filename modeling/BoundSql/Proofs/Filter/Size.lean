import BoundSql.Proofs.Filter.Yield

/-!
# The size of a filter document

`Value.depth` and `Value.operators` measure a document as it stands: how deep its filter objects
are nested, and how many combinators and operators it uses. Only entries that count are measured.
They agree with the measures of the filter that the document is read as.
-/

namespace BoundSql

namespace Value

mutual

/-- How deep the filter objects of a document stand inside each other. -/
def depth : Value → Nat
  | object entries => depthEntries entries + 1
  | _ => 0

/-- The depth of what a combinator is given. -/
def depthGiven : Value → Nat
  | array l => depthItems l
  | _ => 0

/-- The greatest depth of some documents. -/
def depthItems : List Value → Nat
  | [] => 0
  | v :: l => max (depth v) (depthItems l)

/-- The greatest depth below the entries that count. -/
def depthEntries : List (String × Value) → Nat
  | [] => 0
  | (key, v) :: l =>
    max
      (match counts key v l, Key.ofText key with
        | true, .combinator _ => depthGiven v
        | true, .block _ => depth v
        | _, _ => 0)
      (depthEntries l)

end

mutual

/-- The number of combinators and operators that a document uses. -/
def operators : Value → Nat
  | object entries => operatorsEntries entries
  | _ => 0

/-- The number of operators in what a combinator is given, the combinator included. -/
def operatorsGiven : Value → Nat
  | array l => operatorsItems l + 1
  | _ => 0

/-- The number of operators that some documents use. -/
def operatorsItems : List Value → Nat
  | [] => 0
  | v :: l => operators v + operatorsItems l

/-- The number of operators that the entries that count use. -/
def operatorsEntries : List (String × Value) → Nat
  | [] => 0
  | (key, v) :: l =>
    (match counts key v l, Key.ofText key with
      | true, .combinator _ => operatorsGiven v
      | true, .block _ => operators v
      | true, .field _ => Operator.used v
      | false, _ => 0) + operatorsEntries l

end

end Value

namespace Filter

/-! ## What an entry adds to the size -/

/-- The depth of what an entry that counts is read as. -/
def depthEntry (key : String) (v : Value) : Nat :=
  match Key.ofText key with
  | .combinator _ => depthCombination (combinationOf v)
  | .block _ => (ofValue v).depth
  | .field _ => 0

/-- The number of operators in what an entry that counts is read as. -/
def operatorsEntry (key : String) (v : Value) : Nat :=
  match Key.ofText key with
  | .combinator _ => operatorsCombination (combinationOf v)
  | .block _ => (ofValue v).operators
  | .field _ => Operator.used v

variable {key : String} {v : Value} {p p' : Parts}

theorem depth_adds (h : Parts.Adds key v p p') :
    (ofParts p').depth = max (depthEntry key v + 1) (ofParts p).depth := by
  cases h with
  | combinator c hkey habsent =>
    rw [depthEntry, hkey]
    cases c <;> simp only [Parts.combination] at habsent <;>
      simp only [ofParts, depth, Parts.giving, habsent, depthCombination] <;> omega
  | block name hkey hobject =>
    rw [depthEntry, hkey]
    simp only [ofParts, depth, depthBlocks]
    omega
  | field hkey =>
    rw [depthEntry, hkey]
    simp only [ofParts, depth]
    omega

theorem operators_adds (h : Parts.Adds key v p p') :
    (ofParts p').operators = operatorsEntry key v + (ofParts p).operators := by
  cases h with
  | combinator c hkey habsent =>
    rw [operatorsEntry, hkey]
    cases c <;> simp only [Parts.combination] at habsent <;>
      simp only [ofParts, operators, Parts.giving, habsent, operatorsCombination] <;> omega
  | block name hkey hobject =>
    rw [operatorsEntry, hkey]
    simp only [ofParts, operators, operatorsBlocks]
    omega
  | field hkey =>
    rw [operatorsEntry, hkey]
    simp only [ofParts, operators, operatorsFields]
    omega

/-! ## The measures agree -/

mutual

/-- A document is as deep as the filter that it is read as. -/
theorem depth_ofValue : ∀ v : Value, (ofValue v).depth = v.depth
  | .object entries => by
    rw [ofValue, Value.depth]
    exact depth_partsOf entries
  | .undefined | .null | .bool _ | .int _ | .bigInt _ | .float _ | .text _ | .date _ | .bytes _
  | .array _ => rfl

theorem depthCombination_combinationOf : ∀ v : Value,
    depthCombination (combinationOf v) = v.depthGiven
  | .array l => by
    rw [combinationOf, depthCombination, Value.depthGiven]
    exact depthItems_ofItems l
  | .undefined | .null | .bool _ | .int _ | .bigInt _ | .float _ | .text _ | .date _ | .bytes _
  | .object _ => rfl

theorem depthItems_ofItems : ∀ l : List Value, depthItems (ofItems l) = Value.depthItems l
  | [] => rfl
  | v :: l => by
    rw [ofItems, depthItems, Value.depthItems, depth_ofValue v, depthItems_ofItems l]

theorem depth_partsOf : ∀ entries : List (String × Value),
    (ofParts (partsOf entries)).depth = Value.depthEntries entries + 1
  | [] => rfl
  | (key, v) :: l => by
    have hl := depth_partsOf l
    have hv := depth_ofValue v
    have hgiven := depthCombination_combinationOf v
    rw [Value.depthEntries]
    cases h : Value.counts key v l with
    | false =>
      rw [partsOf_cons_of_not_counts h, hl]
      simp
    | true =>
      rw [depth_adds (partsOf_cons_of_counts h), hl, depthEntry]
      cases Key.ofText key <;> simp only [hv, hgiven] <;> omega

end

mutual

/-- A document uses as many operators as the filter that it is read as. -/
theorem operators_ofValue : ∀ v : Value, (ofValue v).operators = v.operators
  | .object entries => by
    rw [ofValue, Value.operators]
    exact operators_partsOf entries
  | .undefined | .null | .bool _ | .int _ | .bigInt _ | .float _ | .text _ | .date _ | .bytes _
  | .array _ => rfl

theorem operatorsCombination_combinationOf : ∀ v : Value,
    operatorsCombination (combinationOf v) = v.operatorsGiven
  | .array l => by
    rw [combinationOf, operatorsCombination, Value.operatorsGiven]
    rw [operatorsItems_ofItems l]
  | .undefined | .null | .bool _ | .int _ | .bigInt _ | .float _ | .text _ | .date _ | .bytes _
  | .object _ => rfl

theorem operatorsItems_ofItems : ∀ l : List Value,
    operatorsItems (ofItems l) = Value.operatorsItems l
  | [] => rfl
  | v :: l => by
    rw [ofItems, operatorsItems, Value.operatorsItems, operators_ofValue v,
      operatorsItems_ofItems l]

theorem operators_partsOf : ∀ entries : List (String × Value),
    (ofParts (partsOf entries)).operators = Value.operatorsEntries entries
  | [] => rfl
  | (key, v) :: l => by
    have hl := operators_partsOf l
    have hv := operators_ofValue v
    have hgiven := operatorsCombination_combinationOf v
    rw [Value.operatorsEntries]
    cases h : Value.counts key v l with
    | false =>
      rw [partsOf_cons_of_not_counts h, hl]
      simp
    | true =>
      rw [operators_adds (partsOf_cons_of_counts h), hl, operatorsEntry]
      cases Key.ofText key <;> simp only [hv, hgiven]

end

end Filter

end BoundSql
