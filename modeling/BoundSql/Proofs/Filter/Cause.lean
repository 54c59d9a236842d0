import BoundSql.Proofs.Filter.Grammar
import BoundSql.Proofs.Filter.Holds

/-!
# What a document gives cause for

A refusal names a cause, with the key, the shape or the number that is to blame.
`Value.Warrants limits v e` says that the document `v` gives cause for the error `e` under some
limits: that what the error names stands in the document, at a place where it is at fault. There is
a constructor for each cause that a filter can have. The errors of finished text, of limits
documents and of files have none.

The lemmas go through the checks that the compiler makes of a field, of an operator and of a scalar.
Each says that a check which fails at something that the document holds fails for a cause that the
document gives.
-/

namespace BoundSql

/-- The shape that the operand of an operator must have, unless any scalar will do. -/
def Operator.expected? : Operator → Option Shape
  | oneOf | noneOf => some .array
  | like | likeNoCase | regex => some .string
  | present => some .boolean
  | greater | atLeast | less | atMost | notEqual => none

/-- What is wrong with a dotted field that falls apart into a column and segments. Of the segments,
the first one that is no identifier is to blame. -/
inductive PathFault.In : PathFault → List (List Char) → Prop
  | missingColumn {segments : List (List Char)} : In .missingColumn ([] :: segments)
  | emptySegment {column : List Char} {before after : List (List Char)} : column ≠ [] →
      (∀ part ∈ before, isIdentifier (String.ofList part) = true) →
      In .emptySegment (column :: (before ++ [] :: after))
  | badSegment {column segment : List Char} {before after : List (List Char)} : column ≠ [] →
      (∀ part ∈ before, isIdentifier (String.ofList part) = true) →
      segment ≠ [] → isIdentifier (String.ofList segment) = false →
      In .badSegment (column :: (before ++ segment :: after))

/-- The document gives cause for an error. -/
inductive Value.Warrants (limits : Limits) (v : Value) : Error → Prop
  /-- The document, or an item of a combinator, is no object. -/
  | notAnObject {w : Value} :
      (w = v ∨ ∃ blocks c l, v.HoldsEntry blocks (Combinator.key c) (.array l) ∧ w ∈ l) →
      w.isObject = false → Warrants limits v (.notAnObject w.shape)
  | combinatorNotArray {blocks : List String} {c : Combinator} {w : Value} :
      v.HoldsEntry blocks c.key w → w.shape ≠ .array → Warrants limits v (.combinatorNotArray c)
  | combinatorEmpty {blocks : List String} {c : Combinator} :
      v.HoldsEntry blocks c.key (.array []) → Warrants limits v (.combinatorEmpty c)
  | arrayField {field : String} {l : List Value} : v.HoldsField field (.array l) →
      Warrants limits v (.arrayField field)
  | emptyFilter {blocks : List String} {entries : List (String × Value)} :
      v.HoldsFilter blocks (.object entries) → counted entries = [] →
      Warrants limits v .emptyFilter
  | emptyOperators {field : String} {entries : List (String × Value)} :
      v.HoldsField field (.object entries) → Operator.Known entries →
      (∀ e ∈ entries, e.2.isUndefined = true ∧ e.1 ≠ Operator.notEqual.name) →
      Warrants limits v (.emptyOperators field)
  | nestedAlias {outer inner : String} {blocks : List String} {w : Value} :
      v.HoldsEntry (outer :: blocks) ("$" ++ inner) w → w.isObject = true →
      Warrants limits v (.nestedAlias outer inner)
  /-- A field without dots, or what stands before the first dot of a field. -/
  | badColumn {field : String} {condition : Value} : v.HoldsField field condition →
      isIdentifier (Field.column field) = false →
      Warrants limits v (.badIdentifier (Field.column field))
  | badAlias {blocks : List String} {name : String} {w : Value} :
      v.HoldsEntry blocks ("$" ++ name) w → isIdentifier name = false →
      Warrants limits v (.badIdentifier name)
  | badPath {field : String} {condition : Value} {fault : PathFault} :
      v.HoldsField field condition → '.' ∈ field.toList →
      fault.In (field.toList.splitOn '.') → Warrants limits v (.badPath field fault)
  | unknownOperator {field key : String} {entries : List (String × Value)} {operand : Value} :
      v.HoldsField field (.object entries) → (key, operand) ∈ entries →
      (∀ op : Operator, key ≠ op.name) → Warrants limits v (.unknownOperator key)
  | operandShape {op : Operator} {operand : Value} {expected : Shape} :
      v.HoldsOperand op operand → operand.isUndefined = false → op.expected? = some expected →
      operand.shape ≠ expected → Warrants limits v (.operandShape op expected)
  | emptyList {op : Operator} : v.HoldsOperand op (.array []) → op.expected? = some .array →
      Warrants limits v (.emptyList op)
  | listTooLong {op : Operator} {l : List Value} : v.HoldsOperand op (.array l) →
      op.expected? = some .array → limits.listItems < l.length →
      Warrants limits v (.listTooLong op l.length limits.listItems)
  | tooDeep : limits.nestingDepth < v.depth → Warrants limits v (.tooDeep limits.nestingDepth)
  | tooManyOperators : limits.operators < v.operators →
      Warrants limits v (.tooManyOperators limits.operators)
  | integerOutOfRange {n : UInt64} : v.HoldsScalar (.bigInt n) →
      Warrants limits v (.integerOutOfRange n)
  | nonFinite {x : Double} {f : NonFinite} : v.HoldsScalar (.float x) → x.nonFinite? = some f →
      Warrants limits v (.nonFinite f)
  | notScalar {w : Value} : v.HoldsScalar w → w.shape = .array ∨ w.shape = .object →
      Warrants limits v (.notScalar w.shape)
  | bytesOperand {content : List UInt8} : v.HoldsScalar (.bytes content) →
      Warrants limits v .bytesOperand

variable {limits : Limits} {v : Value} {e : Error}

/-- What a document gives cause for is never the fault of finished text or of the surroundings. -/
theorem Value.Warrants.kind_mem (h : v.Warrants limits e) :
    e.kind ∈ [.structural, .identifier, .operator, .resourceLimit, .coercion] := by
  cases h <;> simp [Error.kind]

/-! ## Scalars and lists -/

namespace Value.HoldsScalar

theorem warrants_of_bind {w : Value} (h : v.HoldsScalar w) (he : w.bind = .error e) :
    v.Warrants limits e := by
  cases w with
  | bigInt n =>
    cases he
    exact .integerOutOfRange h
  | float x =>
    rw [Value.bind] at he
    cases hx : x.nonFinite? with
    | none =>
      rw [hx] at he
      cases he
    | some f =>
      rw [hx] at he
      cases he
      exact .nonFinite h hx
  | bytes content =>
    cases he
    exact .bytesOperand h
  | array l =>
    cases he
    exact .notScalar h (.inl rfl)
  | object entries =>
    cases he
    exact .notScalar h (.inr rfl)
  | _ => cases he

theorem warrants_of_bindAll {l : List Value} (h : ∀ w ∈ l, v.HoldsScalar w)
    (he : bindAll l = .error e) : v.Warrants limits e := by
  induction l with
  | nil => cases he
  | cons w l ih =>
    rw [List.forall_mem_cons] at h
    rw [bindAll] at he
    cases hw : w.bind with
    | error e' =>
      rw [hw] at he
      cases he
      exact h.1.warrants_of_bind hw
    | ok b =>
      cases hl : bindAll l with
      | error e' =>
        rw [hw, hl] at he
        cases he
        exact ih h.2 hl
      | ok bs =>
        rw [hw, hl] at he
        cases he

end Value.HoldsScalar

theorem Value.HoldsOperand.warrants_of_ofList {op : Operator} {l : List Value}
    (hop : op.expected? = some .array) (h : v.HoldsOperand op (.array l))
    (he : Fragment.ofList op l limits.listItems = .error e) : v.Warrants limits e := by
  have hitem : ∀ w ∈ l, v.HoldsScalar w := fun w hw =>
    .item (by cases op <;> first | decide | cases hop) h hw
  unfold Fragment.ofList at he
  split at he
  · next hempty =>
    cases he
    obtain rfl := List.isEmpty_iff.1 hempty
    exact .emptyList h hop
  split at he
  · next hlong =>
    cases he
    exact .listTooLong h hop hlong
  · cases hbind : Value.bindAll l with
    | error e' =>
      rw [hbind] at he
      cases he
      exact HoldsScalar.warrants_of_bindAll hitem hbind
    | ok bs =>
      rw [hbind] at he
      cases he

/-! ## Fields -/

theorem Identifier.eq_of_ofName_eq_error {name : String} (h : Identifier.ofName name = .error e) :
    isIdentifier name = false ∧ e = .badIdentifier name := by
  unfold Identifier.ofName at h
  split at h
  · cases h
  · next hname =>
    cases h
    exact ⟨Bool.eq_false_iff.2 hname, rfl⟩

namespace JsonPath

/-- The first segment that is no identifier decides what is wrong with the segments. -/
theorem in_of_segmentFault? {column : List Char} (hcolumn : column ≠ [])
    {segments : List (List Char)} {fault : PathFault} (h : segmentFault? segments = some fault) :
    fault.In (column :: segments) := by
  obtain ⟨before, segment, after, rfl, hbefore, hbad, rfl⟩ := Target.segmentFault?_eq_some_iff.1 h
  by_cases hempty : segment = []
  · rw [if_pos hempty, hempty]
    exact .emptySegment hcolumn hbefore
  · rw [if_neg hempty]
    exact .badSegment hcolumn hbefore hempty hbad

/-- What is wrong with a field that has a dot, but names no place. -/
theorem eq_of_ofField_eq_error {field : String} (hdot : '.' ∈ field.toList)
    (h : ofField field = .error e) :
    ∃ fault, e = .badPath field fault ∧ fault.In (field.toList.splitOn '.') := by
  obtain ⟨segments, hne, hparts, -⟩ := Target.parts_of_mem hdot
  rw [ofField, hparts] at h
  rw [hparts]
  by_cases hcolumn : (Field.column field).toList = []
  · rw [hcolumn] at h ⊢
    cases h
    exact ⟨.missingColumn, rfl, .missingColumn⟩
  · simp only [List.isEmpty_iff, hcolumn, hne, if_false] at h
    cases hfault : segmentFault? segments with
    | none =>
      rw [hfault] at h
      cases h
    | some fault =>
      rw [hfault] at h
      cases h
      exact ⟨fault, rfl, in_of_segmentFault? hcolumn hfault⟩

/-- The place that a field names is in its column. -/
theorem column_of_ofField {field : String} (hdot : '.' ∈ field.toList) {p : JsonPath}
    (h : ofField field = .ok p) : p.column = Field.column field := by
  obtain ⟨segments, -, hparts, -⟩ := Target.parts_of_mem hdot
  obtain ⟨-, -, -, rfl⟩ := (Target.jsonPath_eq_ok_iff hparts).1 h
  exact String.ofList_toList

end JsonPath

/-- Only its name can be wrong with the target of a column. -/
theorem Target.eq_of_column_eq_error {qualifier : Option Identifier} {name : String}
    {path : Option String}
    (h : (do let column ← Identifier.ofName name; pure { qualifier, column, path } :
      Except Error Target) = .error e) : isIdentifier name = false ∧ e = .badIdentifier name := by
  refine Identifier.eq_of_ofName_eq_error ?_
  cases hname : Identifier.ofName name with
  | error e' =>
    rw [hname] at h
    cases h
    rfl
  | ok i =>
    rw [hname] at h
    cases h

theorem Value.HoldsField.warrants_of_ofField {qualifier : Option Identifier} {field : String}
    {condition : Value} (h : v.HoldsField field condition)
    (he : Target.ofField qualifier field = .error e) : v.Warrants limits e := by
  unfold Target.ofField at he
  by_cases hdot : '.' ∈ field.toList
  · rw [if_pos (Target.isDotted_iff.2 hdot)] at he
    cases hplace : JsonPath.ofField field with
    | error e' =>
      rw [hplace] at he
      cases he
      obtain ⟨fault, rfl, hfault⟩ := JsonPath.eq_of_ofField_eq_error hdot hplace
      exact .badPath h hdot hfault
    | ok p =>
      rw [hplace] at he
      obtain ⟨hbad, rfl⟩ := Target.eq_of_column_eq_error he
      rw [JsonPath.column_of_ofField hdot hplace] at hbad ⊢
      exact .badColumn h hbad
  · rw [if_neg (Target.isDotted_iff.not.2 hdot)] at he
    obtain ⟨hbad, rfl⟩ := Target.eq_of_column_eq_error he
    rw [← Target.column_of_not_mem hdot] at hbad ⊢
    exact .badColumn h hbad

/-! ## Operator objects and blocks -/

theorem Operator.eq_of_ofEntries_eq_error {entries : List (String × Value)}
    (h : Operator.ofEntries entries = .error e) :
    ∃ key operand, (key, operand) ∈ entries ∧ (∀ op : Operator, key ≠ op.name) ∧
      e = .unknownOperator key := by
  induction entries with
  | nil => cases h
  | cons entry l ih =>
    obtain ⟨key, operand⟩ := entry
    rw [Operator.ofEntries] at h
    cases hkey : Operator.ofName? key with
    | none =>
      rw [hkey] at h
      cases h
      refine ⟨key, operand, List.mem_cons_self, fun op hop => ?_, rfl⟩
      rw [Operator.ofName?_eq_some_iff.2 hop] at hkey
      cases hkey
    | some op =>
      cases hl : Operator.ofEntries l with
      | error e' =>
        rw [hkey, hl] at h
        cases h
        obtain ⟨key', operand', hmem, hbad⟩ := ih hl
        exact ⟨key', operand', List.mem_cons_of_mem _ hmem, hbad⟩
      | ok ops =>
        rw [hkey, hl] at h
        cases h

/-- Operators that ask nothing are given nothing, but for those that ask whether the field is
present. -/
theorem Operator.undefined_of_skips {ops : List (Operator × Value)}
    (hpresence : Operator.presence? ops = none) (hskips : ∀ p ∈ ops, p.1.skips p.2 = true) :
    ∀ e ∈ Operator.entriesOf ops, e.2.isUndefined = true ∧ e.1 ≠ Operator.notEqual.name := by
  rw [Operator.entriesOf, List.forall_mem_map]
  intro p hp
  have hskip := hskips p hp
  rw [Operator.presence?, Option.map_eq_none_iff, List.find?_eq_none] at hpresence
  have hpresent := hpresence p hp
  rw [Operator.skips] at hskip
  simp only [ne_eq, Operator.name_inj]
  by_cases hop : p.1 = .present
  · simpa [hop] using hpresent
  · simpa [hop] using hskip

/-- An alias block that counts is an object. -/
theorem Value.isObject_of_mem_counted {entries : List (String × Value)} {name : String} {w : Value}
    (h : ("$" ++ name, w) ∈ Value.counted entries) : w.isObject = true := by
  induction entries with
  | nil => cases h
  | cons entry l ih =>
    obtain ⟨key, u⟩ := entry
    rw [Value.counted] at h
    split at h
    · next hcounts =>
      rcases List.mem_cons.1 h with heq | h
      · cases heq
        simp only [Value.counts, Key.ofText_dollar, Bool.and_eq_true] at hcounts
        exact hcounts.2
      · exact ih h
    · exact ih h

theorem Value.HoldsFilter.warrants_notAnObject {blocks : List String} {w : Value}
    (h : v.HoldsFilter blocks w) (hobject : w.isObject = false) :
    v.Warrants limits (.notAnObject w.shape) := by
  refine .notAnObject ?_ hobject
  cases h with
  | root => exact .inl rfl
  | item h hmem hw => exact .inr ⟨_, _, _, ⟨_, h, hmem⟩, hw⟩
  | block h hmem =>
    rw [Value.isObject_of_mem_counted hmem] at hobject
    cases hobject

/-- The alias of a block is refused inside the innermost of some other blocks, or for its name. -/
theorem Value.HoldsEntry.warrants_of_blockAlias {qualifier : Option Identifier}
    {blocks : List String} (hqualifier : qualifier.map Identifier.name = blocks.head?)
    {name : String} {w : Value} (h : v.HoldsEntry blocks ("$" ++ name) w)
    (he : Filter.blockAlias qualifier name = .error e) : v.Warrants limits e := by
  cases qualifier with
  | none =>
    obtain ⟨hbad, rfl⟩ := Identifier.eq_of_ofName_eq_error he
    exact .badAlias h hbad
  | some outer =>
    cases he
    obtain ⟨rest, rfl⟩ : ∃ rest, blocks = outer.name :: rest := by
      rw [Option.map_some] at hqualifier
      exact List.head?_eq_some_iff.1 hqualifier.symm
    obtain ⟨entries, hfilter, hmem⟩ := h
    exact .nestedAlias ⟨entries, hfilter, hmem⟩ (Value.isObject_of_mem_counted hmem)

end BoundSql
