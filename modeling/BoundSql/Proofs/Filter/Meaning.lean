import BoundSql.Proofs.Clause.Reading
import BoundSql.Proofs.Filter.Grammar

/-!
# What a filter document means

`Value.truth` is the truth value of a filter document, read off the document itself: a filter object
holds when all its entries that count hold, `"and"` and `"or"` hold when all or some of their items
do, and a field holds when its condition does. Which atomic predicates hold is given by an
interpretation.

The text that a document compiles to is read in exactly one way, and it is then true, false or
unknown together with the document, whatever the interpretation (`compile_preserves_meaning`).
-/

namespace BoundSql

open Sql

/-! ## The meaning of a document -/

/-- What a scalar is compared as. -/
def Value.coerced (v : Value) : Binding :=
  v.bind.toOption.getD .null

namespace Operator

/-- The truth of an operator and its operand, by what the tests of the subject give. -/
def truth (ask : Test → List Binding → Truth) (op : Operator) (operand : Value) : Truth :=
  match op, operand with
  | greater, v => ask .greater [v.coerced]
  | atLeast, v => ask .atLeast [v.coerced]
  | less, v => ask .less [v.coerced]
  | atMost, v => ask .atMost [v.coerced]
  | notEqual, v => if v.isNullish then ask .isNotNull [] else ask .notEqual [v.coerced]
  | oneOf, .array l => ask (.oneOf l.length) (l.map Value.coerced)
  | noneOf, .array l => ask (.noneOf l.length) (l.map Value.coerced)
  | like, .text s => ask .like [.text s]
  | likeNoCase, .text s => ask .likeNoCase [.text s]
  | regex, .text s => ask .regex [.text s]
  | present, .bool b => if b then ask .isNotNull [] else ask .isNull []
  | _, _ => .unknown

/-- The truth of an entry of an operator object. -/
def truthEntry (ask : Test → List Binding → Truth) (e : String × Value) : Truth :=
  match ofName? e.1 with
  | some op => op.truth ask e.2
  | none => .unknown

end Operator

/-- The truth of a condition. Whether the field is present decides alone when it is asked for; all
operators that ask for something have to hold otherwise. -/
def conditionTruth (ask : Test → List Binding → Truth) : Value → Truth
  | .null => ask .isNull []
  | .object entries =>
    match Operator.firstPresence entries with
    | some v => Operator.present.truth ask v
    | none =>
      Combinator.and.ofList
        ((entries.filter fun e => Operator.asked e.1 e.2).map (Operator.truthEntry ask))
  | v => ask .equal [v.coerced]

namespace Value

mutual

/-- The truth of a filter document, inside the block of an alias if there is one. -/
def truth (I : Interpretation) (qualifier : Option String) : Value → Truth
  | object entries => Combinator.and.ofList (truthEntries I qualifier entries)
  | _ => .unknown

/-- The truth of what a combinator is given. -/
def truthGiven (I : Interpretation) (qualifier : Option String) (c : Combinator) : Value → Truth
  | array l => c.ofList (truthItems I qualifier l)
  | _ => .unknown

/-- The truth of some documents, one by one. -/
def truthItems (I : Interpretation) (qualifier : Option String) : List Value → List Truth
  | [] => []
  | v :: l => truth I qualifier v :: truthItems I qualifier l

/-- The truth of the entries that count, one by one. -/
def truthEntries (I : Interpretation) (qualifier : Option String) :
    List (String × Value) → List Truth
  | [] => []
  | (key, v) :: l =>
    match counts key v l, Key.ofText key with
    | false, _ => truthEntries I qualifier l
    | true, .combinator c => truthGiven I qualifier c v :: truthEntries I qualifier l
    | true, .block name => truth I (some name) v :: truthEntries I qualifier l
    | true, .field name =>
      conditionTruth (I qualifier (Field.column name) ((Field.path name).map .text)) v ::
        truthEntries I qualifier l

end

end Value

/-! ## Operators -/

theorem coerced_of_bind {v : Value} {b : Binding} (h : v.bind.toOption = some b) :
    v.coerced = b := by
  rw [Value.coerced, h, Option.getD_some]

theorem coerced_of_bindAll {l : List Value} {bs : List Binding}
    (h : (Value.bindAll l).toOption = some bs) : l.map Value.coerced = bs := by
  have hall := Value.bindAll_eq_ok_iff.1 (toOption_eq_some_iff.1 h)
  rw [← List.forall₂_eq_eq_eq, List.forall₂_map_left_iff]
  refine hall.imp fun v b hb => ?_
  exact coerced_of_bind (toOption_eq_some_iff.2 hb)

namespace Operator

variable {items : Nat} (ask : Test → List Binding → Truth)

theorem truth_askScalar {operand : Value} {test : Test} {takes : ∀ b, test.Takes [b]}
    {t : BoundTest} (h : operand.bind.toOption.map (.one test takes) = some t) :
    ask t.test t.operands = ask test [operand.coerced] := by
  obtain ⟨b, hb, rfl⟩ := Option.map_eq_some_iff.1 h
  rw [coerced_of_bind hb]
  rfl

theorem truth_askList {test : Nat → Test}
    {takes : ∀ b bs, (test (List.length (b :: bs))).Takes (b :: bs)} {operand : Value}
    {t : BoundTest} (h : askList items test takes operand = some t) :
    ∃ l, operand = .array l ∧
      ask t.test t.operands = ask (test l.length) (l.map Value.coerced) := by
  cases operand with
  | array l =>
    refine ⟨l, rfl, ?_⟩
    rw [askList] at h
    split at h
    · cases h
    · split at h
      · next b bs hbs =>
        cases h
        have hmap := coerced_of_bindAll hbs
        have hlen := congrArg List.length hmap
        rw [List.length_map] at hlen
        rw [hmap, hlen]
      · cases h
  | _ => cases h

theorem truth_askPattern {test : Test} {takes : ∀ b, test.Takes [b]} {operand : Value}
    {t : BoundTest} (h : askPattern test takes operand = some t) :
    ∃ s, operand = .text s ∧ ask t.test t.operands = ask test [.text s] := by
  cases operand with
  | text s =>
    cases h
    exact ⟨s, rfl, rfl⟩
  | _ => cases h

/-- The test that an operator asks for means what the operator means. -/
theorem truth_ask {op : Operator} {operand : Value} {t : BoundTest}
    (h : op.ask items operand = some t) : ask t.test t.operands = op.truth ask operand := by
  cases op with
  | greater => exact truth_askScalar ask h
  | atLeast => exact truth_askScalar ask h
  | less => exact truth_askScalar ask h
  | atMost => exact truth_askScalar ask h
  | notEqual =>
    rw [Operator.ask] at h
    rw [truth]
    split at h
    · next hnull =>
      cases h
      rw [if_pos hnull]
    · next hnull =>
      rw [if_neg hnull]
      exact truth_askScalar ask h
  | oneOf =>
    obtain ⟨l, rfl, hl⟩ := truth_askList ask h
    exact hl
  | noneOf =>
    obtain ⟨l, rfl, hl⟩ := truth_askList ask h
    exact hl
  | like =>
    obtain ⟨s, rfl, hs⟩ := truth_askPattern ask h
    exact hs
  | likeNoCase =>
    obtain ⟨s, rfl, hs⟩ := truth_askPattern ask h
    exact hs
  | regex =>
    obtain ⟨s, rfl, hs⟩ := truth_askPattern ask h
    exact hs
  | present => cases h

/-- The tests that some operators ask for mean what the operators mean, one by one. -/
theorem truth_askAll {ops : List (Operator × Value)} {ts : List BoundTest}
    (h : askAll items ops = some ts) :
    ts.map (fun t => ask t.test t.operands) =
      ((entriesOf ops).filter fun e => asked e.1 e.2).map (truthEntry ask) := by
  induction ops generalizing ts with
  | nil =>
    cases h
    rfl
  | cons p ops ih =>
    obtain ⟨op, operand⟩ := p
    have hasked : asked op.name operand = !op.skips operand := asked_name op operand
    have hentries : entriesOf ((op, operand) :: ops) = (op.name, operand) :: entriesOf ops := rfl
    rw [askAll] at h
    rw [hentries, List.filter_cons, hasked]
    cases hs : op.skips operand with
    | true =>
      rw [hs, if_pos rfl] at h
      simpa using ih h
    | false =>
      rw [hs, if_neg (by decide)] at h
      obtain ⟨t, ht, h⟩ := Option.bind_eq_some_iff.1 h
      obtain ⟨ts', hts, rfl⟩ := Option.map_eq_some_iff.1 h
      rw [List.map_cons, ih hts, truth_ask ask ht, Bool.not_false, if_pos rfl, List.map_cons,
        truthEntry, ofName?_name]

end Operator

/-! ## Filters -/

namespace Filter

open BoundClause

variable {items : Nat} (I : Interpretation)

/-- What the tests of a target give. -/
def asked (target : Target) : Test → List Binding → Truth :=
  I (target.qualifier.map Identifier.name) target.column.name (target.path.map .text)

theorem truth_boundOperators {target : Target} {entries : List (String × Value)} {b : BoundClause}
    (h : boundOperators items target entries = some b) :
    b.expr.truth I = conditionTruth (asked I target) (.object entries) := by
  rw [boundOperators] at h
  obtain ⟨ops, hops, hmatch⟩ := Option.bind_eq_some_iff.1 h
  obtain rfl := Operator.ofEntries_eq_ok_iff.1 (toOption_eq_some_iff.1 hops)
  rw [conditionTruth, Operator.firstPresence_entriesOf]
  cases hp : Operator.presence? ops with
  | some v =>
    rw [hp] at hmatch
    cases v with
    | bool present =>
      cases hmatch
      rw [truth_expr_tests]
      cases present <;> exact Combinator.of_unit _ _
    | _ => cases hmatch
  | none =>
    rw [hp] at hmatch
    obtain ⟨ts, hts, hmatch⟩ := Option.bind_eq_some_iff.1 hmatch
    cases ts with
    | nil => cases hmatch
    | cons t ts =>
      cases hmatch
      rw [truth_expr_tests]
      exact congrArg Combinator.and.ofList (Operator.truth_askAll (asked I target) hts)

/-- The clause of a field means its condition, asked of what the field names. -/
theorem truth_boundField {qualifier : Option Identifier} {field : String} {v : Value}
    {b : BoundClause} (hv : v.isUndefined = false)
    (h : boundField items qualifier field v = some b) :
    b.expr.truth I = conditionTruth (I (qualifier.map Identifier.name) (Field.column field)
      ((Field.path field).map .text)) v := by
  rw [boundField] at h
  obtain ⟨target, htarget, h⟩ := Option.bind_eq_some_iff.1 h
  have hasked : asked I target = I (qualifier.map Identifier.name) (Field.column field)
      ((Field.path field).map .text) := by
    obtain ⟨-, hqualifier, hcolumn, hpath⟩ :=
      Target.ofField_eq_ok_iff.1 (toOption_eq_some_iff.1 htarget)
    rw [asked, hqualifier, hcolumn, hpath]
  rw [← hasked]
  have hequal : ∀ w : Value, (w.bind.toOption.map fun b =>
      .tests target (.one .equal (fun _ => rfl) b) []) = some b →
        b.expr.truth I = asked I target .equal [w.coerced] := by
    intro w hw
    obtain ⟨c, hc, rfl⟩ := Option.map_eq_some_iff.1 hw
    rw [truth_expr_tests, coerced_of_bind hc]
    exact Combinator.of_unit _ _
  cases v with
  | undefined => cases hv
  | null =>
    cases h
    rw [truth_expr_tests]
    exact Combinator.of_unit _ _
  | array l => cases h
  | object entries => exact truth_boundOperators I h
  | _ => exact hequal _ h

/-- The clause of a filter object means that all its entries hold that count. -/
theorem truth_bound_object {qualifier : Option Identifier} {entries : List (String × Value)}
    {b : BoundClause} {ts : List Truth}
    (h : bound items qualifier (ofValue (.object entries)) = some b)
    (hts : ∀ bs, boundEntries items qualifier (Value.counted entries) = some bs →
      bs.map (fun b => b.expr.truth I) = ts) :
    b.expr.truth I = Combinator.and.ofList ts := by
  rw [bound_object] at h
  obtain ⟨parts, hparts, h⟩ := Option.bind_eq_some_iff.1 h
  have hperm : Reordered (boundParts items qualifier (partsOf entries)) _ :=
    boundParts_perm entries
  rw [hparts] at hperm
  rw [truth_conjunction I h]
  generalize hentries : boundEntries items qualifier (Value.counted entries) = bs at hperm
  cases hperm with
  | some hperm =>
    rw [← hts _ hentries]
    exact Combinator.ofList_perm _ (hperm.map _)

theorem boundGiven_array {qualifier : Option Identifier} {c : Combinator} {l : List Value}
    {b : BoundClause} (h : boundGiven items qualifier c (.array l) = some b) :
    ∃ b' bs, boundItems items qualifier (ofItems l) = some (b' :: bs) ∧ b = .combined c b' bs := by
  rw [boundGiven, combinationOf, boundCombination] at h
  cases hl : boundItems items qualifier (ofItems l) with
  | none =>
    rw [hl] at h
    cases h
  | some bs =>
    rw [hl] at h
    cases bs with
    | nil => cases h
    | cons b' bs =>
      cases h
      exact ⟨b', bs, rfl, rfl⟩

mutual

/-- The clause of a document means what the document means. -/
theorem truth_bound (qualifier : Option Identifier) : ∀ (v : Value) (b : BoundClause),
    bound items qualifier (ofValue v) = some b →
      b.expr.truth I = v.truth I (qualifier.map Identifier.name)
  | .object entries, b, h => by
    have hentries := truth_boundEntries qualifier entries
    rw [Value.truth]
    exact truth_bound_object I h hentries
  | .undefined, _, h | .null, _, h | .bool _, _, h | .int _, _, h | .bigInt _, _, h
  | .float _, _, h | .text _, _, h | .date _, _, h | .bytes _, _, h | .array _, _, h => by cases h

theorem truth_boundGiven (qualifier : Option Identifier) (c : Combinator) :
    ∀ (v : Value) (b : BoundClause), boundGiven items qualifier c v = some b →
      b.expr.truth I = v.truthGiven I (qualifier.map Identifier.name) c
  | .array l, b, h => by
    have hl := truth_boundItems qualifier l
    obtain ⟨b', bs, hbs, rfl⟩ := boundGiven_array h
    rw [truth_expr_combined, hl _ hbs, Value.truthGiven]
  | .undefined, _, h | .null, _, h | .bool _, _, h | .int _, _, h | .bigInt _, _, h
  | .float _, _, h | .text _, _, h | .date _, _, h | .bytes _, _, h | .object _, _, h => by cases h

theorem truth_boundItems (qualifier : Option Identifier) :
    ∀ (l : List Value) (bs : List BoundClause), boundItems items qualifier (ofItems l) = some bs →
      bs.map (fun b => b.expr.truth I) = Value.truthItems I (qualifier.map Identifier.name) l
  | [], bs, h => by
    cases h
    rfl
  | v :: l, bs, h => by
    have hv := truth_bound qualifier v
    have hl := truth_boundItems qualifier l
    rw [ofItems, boundItems] at h
    obtain ⟨b, hb, h⟩ := Option.bind_eq_some_iff.1 h
    obtain ⟨bs', hbs', h⟩ := Option.bind_eq_some_iff.1 h
    cases h
    rw [List.map_cons, hv b hb, hl bs' hbs', Value.truthItems]

theorem truth_boundEntries (qualifier : Option Identifier) :
    ∀ (l : List (String × Value)) (bs : List BoundClause),
      boundEntries items qualifier (Value.counted l) = some bs →
        bs.map (fun b => b.expr.truth I) =
          Value.truthEntries I (qualifier.map Identifier.name) l
  | [], bs, h => by
    cases h
    rfl
  | (key, v) :: l, bs, h => by
    have hv := fun q => truth_bound q v
    have hgiven := fun c => truth_boundGiven qualifier c v
    have hl := truth_boundEntries qualifier l
    rw [Value.counted] at h
    rw [Value.truthEntries]
    cases hcounts : Value.counts key v l with
    | false =>
      rw [hcounts] at h
      exact hl bs h
    | true =>
      rw [hcounts, if_pos rfl, boundEntries, boundEntry] at h
      obtain ⟨b, hb, h⟩ := Option.bind_eq_some_iff.1 h
      obtain ⟨bs', hbs', h⟩ := Option.bind_eq_some_iff.1 h
      cases h
      rw [List.map_cons, hl bs' hbs']
      cases hkey : Key.ofText key with
      | combinator c =>
        rw [hkey] at hb
        rw [hgiven c b hb]
      | block name =>
        rw [hkey] at hb
        obtain ⟨inner, hinner, hbound⟩ := Option.bind_eq_some_iff.1 hb
        obtain ⟨-, rfl⟩ := blockAlias_eq_ok_iff.1 (toOption_eq_some_iff.1 hinner)
        rw [hv (some inner) b hbound]
        rfl
      | field name =>
        rw [hkey] at hb
        have hu : v.isUndefined = false := by
          simp only [Value.counts, Bool.and_eq_true, Bool.not_eq_true'] at hcounts
          exact hcounts.1
        rw [truth_boundField I hu hb]

end

end Filter

/-- **Compilation preserves meaning.** The text of what a document compiles to, with its bindings,
reads as exactly one expression, and under every interpretation of the atomic predicates the
expression has the truth value of the document. -/
theorem compile_preserves_meaning {limits : Limits} {v : Value} {f : Fragment}
    (h : compile limits v = .ok f) :
    ∃ e, f.ReadsAs e ∧ (∀ e', f.ReadsAs e' → e' = e) ∧
      ∀ I : Interpretation, e.truth I = v.truth I none := by
  obtain ⟨b, hb, -, -, rfl⟩ := compile_eq_ok_iff.1 h
  refine ⟨.group b.expr, b.readsAs_expr, fun e' he' => he'.unique b.readsAs_expr, fun I => ?_⟩
  exact Filter.truth_bound I none v b hb

/-- A disjunction keeps its place beside a field, and the operands theirs. -/
theorem compile_preserves_meaning_of_disjunction :
    ∃ f e, compile {} (.object [("a.b", .int 1), ("or", .array [.object [("b", .null)],
        .object [("$t", .object [("c", .object [("gt", .int 2), ("lt", .int 9)])])]])]) = .ok f ∧
      f.text =
        "((((\"b\" IS NULL) OR (t.\"c\" > ? AND t.\"c\" < ?)) AND (json_extract(\"a\", ?) = ?)))" ∧
      f.bindings = [.integer 2, .integer 9, .text "$.b", .integer 1] ∧
      f.ReadsAs e ∧ (∀ e', f.ReadsAs e' → e' = e) ∧
      ∀ I : Interpretation, e.truth I = Value.truth I none
        (.object [("a.b", .int 1), ("or", .array [.object [("b", .null)],
          .object [("$t", .object [("c", .object [("gt", .int 2), ("lt", .int 9)])])]])]) := by
  have h : compile {} (.object [("a.b", .int 1), ("or", .array [.object [("b", .null)],
      .object [("$t", .object [("c", .object [("gt", .int 2), ("lt", .int 9)])])]])]) = .ok _ := rfl
  obtain ⟨e, he⟩ := compile_preserves_meaning h
  exact ⟨_, e, h, rfl, rfl, he⟩

end BoundSql
