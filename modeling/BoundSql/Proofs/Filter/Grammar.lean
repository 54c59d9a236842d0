import BoundSql.Proofs.Filter.Field
import BoundSql.Proofs.Filter.Object
import BoundSql.Proofs.Filter.Size

/-!
# Which documents are filters

`IsFilter` is the grammar of filter documents, and `IsCondition` that of the conditions on their
fields. They are stated on documents, without the compiler. A document compiles exactly when it is
a filter and its size is within the limits (`compiles_iff_isFilter`).
-/

namespace BoundSql

/-! ## The grammar -/

/-- A scalar that can be bound: neither a number out of range nor raw bytes. Null is apart. -/
inductive Value.IsScalar : Value → Prop
  | bool (b : Bool) : IsScalar (.bool b)
  | int (n : Int64) : IsScalar (.int n)
  | float {x : Double} : x.nonFinite? = none → IsScalar (.float x)
  | text (s : String) : IsScalar (.text s)
  | date (t : DateTime) : IsScalar (.date t)

/-- The operands that suit an operator. A list may have up to `items` items. -/
def Operator.Suits (items : Nat) (op : Operator) (operand : Value) : Prop :=
  match op with
  | greater | atLeast | less | atMost => operand = .null ∨ operand.IsScalar
  | notEqual => operand.isNullish = true ∨ operand.IsScalar
  | oneOf | noneOf =>
    ∃ l, operand = .array l ∧ l ≠ [] ∧ l.length ≤ items ∧
      ∀ v ∈ l, v.isNullish = true ∨ v.IsScalar
  | like | likeNoCase | regex => ∃ s, operand = .text s
  | present => False

/-- Whether all keys of an operator object are known. -/
def Operator.Known (entries : List (String × Value)) : Prop :=
  ∀ e ∈ entries, ∃ op : Operator, e.1 = op.name

/-- The conditions that a field can be under. Once an operator object asks whether the field is
present, nothing else in it matters but its keys. -/
inductive IsCondition (items : Nat) : Value → Prop
  | null : IsCondition items .null
  | scalar {v : Value} : v.IsScalar → IsCondition items v
  | presence {entries : List (String × Value)} {b : Bool} : Operator.Known entries →
      Operator.firstPresence entries = some (.bool b) → IsCondition items (.object entries)
  | operators {entries : List (String × Value)} : Operator.Known entries →
      Operator.firstPresence entries = none →
      (∃ e ∈ entries, Operator.asked e.1 e.2 = true) →
      (∀ e ∈ entries, ∀ op : Operator, e.1 = op.name → Operator.asked e.1 e.2 = true →
        op.Suits items e.2) →
      IsCondition items (.object entries)

mutual

/-- The documents that are filters, inside the block of an alias or not: objects with entries that
count, each of which is well formed. -/
inductive IsFilter (items : Nat) : Bool → Value → Prop
  | object {inBlock : Bool} {entries : List (String × Value)} : Value.counted entries ≠ [] →
      (∀ e ∈ Value.counted entries, IsEntry items inBlock e.1 e.2) →
      IsFilter items inBlock (.object entries)

/-- The entries that a filter object can have. -/
inductive IsEntry (items : Nat) : Bool → String → Value → Prop
  | combinator {inBlock : Bool} {key : String} {l : List Value} (c : Combinator) : key = c.key →
      l ≠ [] → (∀ v ∈ l, IsFilter items inBlock v) → IsEntry items inBlock key (.array l)
  | block {key : String} {v : Value} (inner : Identifier) : key = "$" ++ inner.name →
      IsFilter items true v → IsEntry items false key v
  | field {inBlock : Bool} {key : String} {v : Value} : (∀ c : Combinator, key ≠ c.key) →
      IsFieldName key → IsCondition items v → IsEntry items inBlock key v

end

/-! ## Operands -/

/-- The values that have a binding. -/
theorem Value.isSome_bind_iff {v : Value} :
    v.bind.toOption.isSome = true ↔ v.isNullish = true ∨ v.IsScalar := by
  constructor
  · intro h
    cases v with
    | undefined => exact .inl rfl
    | null => exact .inl rfl
    | bool b => exact .inr (.bool b)
    | int n => exact .inr (.int n)
    | float x =>
      rw [Value.bind] at h
      cases hx : x.nonFinite? with
      | none => exact .inr (.float hx)
      | some f =>
        rw [hx] at h
        cases h
    | text s => exact .inr (.text s)
    | date t => exact .inr (.date t)
    | _ => cases h
  · rintro (h | h)
    · cases v <;> first | rfl | cases h
    · cases h with
      | float hx =>
        rw [Value.bind, hx]
        rfl
      | _ => rfl

theorem Value.isSome_bindAll_iff {l : List Value} :
    (Value.bindAll l).toOption.isSome = true ↔ ∀ v ∈ l, v.isNullish = true ∨ v.IsScalar := by
  induction l with
  | nil => simp [Value.bindAll, Except.toOption]
  | cons v l ih =>
    rw [List.forall_mem_cons, ← ih, ← Value.isSome_bind_iff, Value.bindAll]
    cases v.bind <;> cases Value.bindAll l <;>
      simp [Except.toOption, Bind.bind, Except.bind, pure, Except.pure]

namespace Operator

variable {items : Nat}

theorem isSome_askList_iff {test : Nat → Test}
    {takes : ∀ b bs, (test (List.length (b :: bs))).Takes (b :: bs)} {operand : Value} :
    (askList items test takes operand).isSome = true ↔
      ∃ l, operand = .array l ∧ l ≠ [] ∧ l.length ≤ items ∧
        ∀ v ∈ l, v.isNullish = true ∨ v.IsScalar := by
  cases operand with
  | array l =>
    -- Which target the test is for plays no part here.
    have hyield := congrArg Option.isSome (map_yield_askList items
      ⟨none, ⟨"_", rfl⟩, none⟩ test takes l)
    rw [Option.isSome_map, Option.isSome_map] at hyield
    rw [hyield]
    simp only [Value.array.injEq, exists_eq_left', ← Value.isSome_bindAll_iff]
    by_cases h : l = [] ∨ items < l.length
    · rw [if_pos h]
      rcases h with h | h
      · simp [h]
      · have hn : ¬ l.length ≤ items := by omega
        simp [hn]
    · rw [if_neg h]
      rw [not_or] at h
      have hn : l.length ≤ items := by omega
      simp [h.1, hn]
  | _ => simp [askList]

theorem isSome_askPattern_iff {test : Test} {takes : ∀ b, test.Takes [b]} {operand : Value} :
    (askPattern test takes operand).isSome = true ↔ ∃ s, operand = .text s := by
  cases operand <;> simp [askPattern]

/-- An operator that asks something of an operand gets it exactly when the operand suits it. -/
theorem isSome_ask_iff {op : Operator} {operand : Value} (hs : op.skips operand = false) :
    (op.ask items operand).isSome = true ↔ op.Suits items operand := by
  have hscalar : op ≠ notEqual → ((operand.bind.toOption.isSome = true) ↔
      operand = .null ∨ operand.IsScalar) := by
    intro hne
    rw [Value.isSome_bind_iff]
    cases operand <;> simp_all [skips, Value.isNullish, Value.isUndefined]
  cases op with
  | oneOf => exact isSome_askList_iff
  | noneOf => exact isSome_askList_iff
  | like => exact isSome_askPattern_iff
  | likeNoCase => exact isSome_askPattern_iff
  | regex => exact isSome_askPattern_iff
  | present => cases hs
  | notEqual =>
    rw [ask, Suits]
    cases hnull : operand.isNullish with
    | true => simp
    | false =>
      have := Value.isSome_bind_iff (v := operand)
      rw [hnull] at this
      simpa using this
  | _ =>
    rw [ask, Option.isSome_map, Suits]
    exact hscalar (by decide)

/-- Operators get the tests that they ask for when each operand suits its operator. -/
theorem isSome_askAll_iff {ops : List (Operator × Value)} :
    (askAll items ops).isSome = true ↔
      ∀ p ∈ ops, p.1.skips p.2 = false → p.1.Suits items p.2 := by
  induction ops with
  | nil => simp [askAll]
  | cons p ops ih =>
    obtain ⟨op, operand⟩ := p
    rw [List.forall_mem_cons, ← ih, askAll]
    cases hs : op.skips operand with
    | true => simp
    | false =>
      rw [← isSome_ask_iff hs]
      cases op.ask items operand <;> simp

/-- There is a test for each operator that asks something. -/
theorem length_of_askAll {ops : List (Operator × Value)} {ts : List BoundTest}
    (h : askAll items ops = some ts) : ts.length = ops.countP fun p => !p.1.skips p.2 := by
  induction ops generalizing ts with
  | nil =>
    cases h
    rfl
  | cons p ops ih =>
    obtain ⟨op, operand⟩ := p
    rw [askAll] at h
    cases hs : op.skips operand with
    | true =>
      rw [hs, if_pos rfl] at h
      simpa [hs] using ih h
    | false =>
      rw [hs, if_neg (by decide)] at h
      obtain ⟨t, -, h⟩ := Option.bind_eq_some_iff.1 h
      obtain ⟨ts', hts, rfl⟩ := Option.map_eq_some_iff.1 h
      simpa [hs] using ih hts

/-- There is a test at all when some operator asks something. -/
theorem askAll_ne_nil_iff {ops : List (Operator × Value)} {ts : List BoundTest}
    (h : askAll items ops = some ts) : ts ≠ [] ↔ ∃ p ∈ ops, p.1.skips p.2 = false := by
  rw [← List.length_pos_iff, length_of_askAll h, List.countP_pos_iff]
  simp only [Bool.not_eq_true']

@[simp] theorem asked_name_eq_not_skips (op : Operator) (operand : Value) :
    asked op.name operand = !op.skips operand := by
  rw [asked_name, skips]

theorem known_iff {entries : List (String × Value)} :
    Known entries ↔ ∃ ops, entries = entriesOf ops := by
  induction entries with
  | nil => exact ⟨fun _ => ⟨[], rfl⟩, fun _ => by simp [Known]⟩
  | cons e l ih =>
    rw [Known, List.forall_mem_cons, ← Known, ih]
    constructor
    · rintro ⟨⟨op, hop⟩, ops, rfl⟩
      refine ⟨(op, e.2) :: ops, ?_⟩
      change e :: entriesOf ops = (op.name, e.2) :: entriesOf ops
      rw [← hop]
    · rintro ⟨ops, h⟩
      cases ops with
      | nil => cases h
      | cons p ops =>
        cases h
        exact ⟨⟨p.1, rfl⟩, ops, rfl⟩

theorem exists_asked_iff {ops : List (Operator × Value)} :
    (∃ e ∈ entriesOf ops, asked e.1 e.2 = true) ↔ ∃ p ∈ ops, p.1.skips p.2 = false := by
  constructor
  · rintro ⟨e, he, hasked⟩
    obtain ⟨p, hp, rfl⟩ := List.mem_map.1 he
    rw [asked_name_eq_not_skips, Bool.not_eq_true'] at hasked
    exact ⟨p, hp, hasked⟩
  · rintro ⟨p, hp, hs⟩
    refine ⟨(p.1.name, p.2), List.mem_map.2 ⟨p, hp, rfl⟩, ?_⟩
    rw [asked_name_eq_not_skips, hs]
    rfl

theorem forall_asked_iff {ops : List (Operator × Value)} :
    (∀ e ∈ entriesOf ops, ∀ op : Operator, e.1 = op.name → asked e.1 e.2 = true →
      op.Suits items e.2) ↔ ∀ p ∈ ops, p.1.skips p.2 = false → p.1.Suits items p.2 := by
  rw [entriesOf, List.forall_mem_map]
  simp only [name_inj, forall_eq', asked_name_eq_not_skips, Bool.not_eq_true']

end Operator

/-! ## Conditions -/

namespace Filter

open BoundClause

variable {items : Nat} {qualifier : Option Identifier}

/-- What an operator object must be like to be a condition. -/
theorem isCondition_object_iff {entries : List (String × Value)} :
    IsCondition items (.object entries) ↔ Operator.Known entries ∧
      ((∃ b, Operator.firstPresence entries = some (.bool b)) ∨
        Operator.firstPresence entries = none ∧
          (∃ e ∈ entries, Operator.asked e.1 e.2 = true) ∧
          ∀ e ∈ entries, ∀ op : Operator, e.1 = op.name → Operator.asked e.1 e.2 = true →
            op.Suits items e.2) := by
  constructor
  · intro h
    cases h with
    | scalar h => cases h
    | presence hk hp => exact ⟨hk, .inl ⟨_, hp⟩⟩
    | operators hk hp hex hall => exact ⟨hk, .inr ⟨hp, hex, hall⟩⟩
  · rintro ⟨hk, ⟨b, hp⟩ | ⟨hp, hex, hall⟩⟩
    · exact .presence hk hp
    · exact .operators hk hp hex hall

/-- Conditions that are neither null nor operator objects are scalars. -/
theorem isCondition_iff_isScalar {v : Value} (hnull : v.isNullish = false)
    (hobject : ∀ entries, v ≠ .object entries) : IsCondition items v ↔ v.IsScalar := by
  constructor
  · intro h
    cases h with
    | null => cases hnull
    | scalar h => exact h
    | presence => exact absurd rfl (hobject _)
    | operators => exact absurd rfl (hobject _)
  · exact .scalar

/-- An operator object has a clause exactly when it is a condition. -/
theorem isSome_boundOperators_iff {target : Target} {entries : List (String × Value)} :
    (boundOperators items target entries).isSome = true ↔
      IsCondition items (.object entries) := by
  rw [isCondition_object_iff, boundOperators]
  cases hops : Operator.ofEntries entries with
  | error e =>
    have hk : ¬ Operator.Known entries := by
      rw [Operator.known_iff]
      rintro ⟨ops, rfl⟩
      rw [Operator.ofEntries_entriesOf] at hops
      cases hops
    simp [hk, Except.toOption]
  | ok ops =>
    obtain rfl := Operator.ofEntries_eq_ok_iff.1 hops
    have hk : Operator.Known (Operator.entriesOf ops) := Operator.known_iff.2 ⟨ops, rfl⟩
    simp only [Except.toOption, Option.bind_eq_bind, Option.bind_some, hk, true_and,
      Operator.firstPresence_entriesOf]
    cases hp : Operator.presence? ops with
    | some v => cases v <;> simp
    | none =>
      rw [Operator.exists_asked_iff, Operator.forall_asked_iff, ← Operator.isSome_askAll_iff]
      cases hask : Operator.askAll items ops with
      | none => simp
      | some ts =>
        rw [← Operator.askAll_ne_nil_iff hask]
        cases ts <;> simp

/-- A field has a clause exactly when it has a name and a condition. -/
theorem isSome_boundField_iff {field : String} {v : Value} (hv : v.isUndefined = false) :
    (boundField items qualifier field v).isSome = true ↔
      IsFieldName field ∧ IsCondition items v := by
  have hscalar : v.isNullish = false → (∀ entries, v ≠ .object entries) →
      (IsCondition items v ↔ v.IsScalar) := isCondition_iff_isScalar
  rw [← Target.isSome_ofField_iff qualifier, boundField]
  cases (Target.ofField qualifier field).toOption with
  | none => simp
  | some target =>
    simp only [Option.bind_eq_bind, Option.bind_some, Option.isSome_some, true_and]
    cases v with
    | undefined => cases hv
    | null => simp [IsCondition.null]
    | array l =>
      rw [hscalar rfl fun _ h => by cases h]
      constructor
      · intro h
        cases h
      · intro h
        cases h
    | object entries => exact isSome_boundOperators_iff
    | _ =>
      rw [Option.isSome_map, Value.isSome_bind_iff, hscalar rfl fun _ h => by cases h]
      simp [Value.isNullish]

/-! ## Filters -/

theorem isSome_front {b : Option BoundClause} {bs : Option (List BoundClause)} :
    (front b bs).isSome = true ↔ b.isSome = true ∧ bs.isSome = true := by
  cases b <;> cases bs <;> simp [front]

theorem blockAlias_eq_ok_iff {name : String} {inner : Identifier} :
    blockAlias qualifier name = .ok inner ↔ qualifier = none ∧ inner.name = name := by
  cases qualifier with
  | none => simp [blockAlias, Identifier.ofName_eq_ok_iff]
  | some outer => simp [blockAlias]

theorem boundEntries_eq_some_nil_iff {entries : List (String × Value)} :
    boundEntries items qualifier entries = some [] ↔ entries = [] := by
  constructor
  · intro h
    cases entries with
    | nil => rfl
    | cons e l =>
      obtain ⟨key, v⟩ := e
      simp [boundEntries, front, Option.bind_eq_some_iff] at h
  · rintro rfl
    rfl

/-- A filter object has a clause when its entries that count have, and there are some. -/
theorem isSome_bound_object_iff {entries : List (String × Value)} :
    (bound items qualifier (ofValue (.object entries))).isSome = true ↔
      Value.counted entries ≠ [] ∧
        (boundEntries items qualifier (Value.counted entries)).isSome = true := by
  have hnil : boundEntries items qualifier (Value.counted entries) = some [] ↔
      Value.counted entries = [] := boundEntries_eq_some_nil_iff
  have hperm : Reordered (boundParts items qualifier (partsOf entries)) _ :=
    boundParts_perm entries
  rw [bound_object]
  revert hnil hperm
  generalize boundParts items qualifier (partsOf entries) = parts
  generalize boundEntries items qualifier (Value.counted entries) = clauses
  intro hnil hperm
  cases hperm with
  | none => simp
  | some h =>
    rw [Option.some.injEq] at hnil
    rw [Option.bind_some, isSome_conjunction, Option.isSome_some, ne_eq, ne_eq, ← hnil,
      ← List.length_eq_zero_iff, h.length_eq, List.length_eq_zero_iff]
    simp

/-- What a combinator is given has a clause when it is a list, not empty, whose items have. -/
theorem isSome_boundGiven_array_iff {c : Combinator} {l : List Value} :
    (boundGiven items qualifier c (.array l)).isSome = true ↔
      l ≠ [] ∧ (boundItems items qualifier (ofItems l)).isSome = true := by
  rw [boundGiven, combinationOf, boundCombination]
  cases l with
  | nil => simp [ofItems, boundItems]
  | cons v l =>
    rw [ofItems, boundItems]
    cases bound items qualifier (ofValue v) with
    | none => simp
    | some b => cases boundItems items qualifier (ofItems l) <;> simp

theorem ofText_of_isFieldName {key : String} (hname : IsFieldName key)
    (hne : ∀ c : Combinator, key ≠ c.key) : Key.ofText key = .field key := by
  cases h : Key.ofText key with
  | combinator c => exact absurd (Key.ofText_eq_combinator_iff.1 h) (hne c)
  | block name =>
    obtain rfl := Key.ofText_eq_block_iff.1 h
    rw [isFieldName_iff, Text.splitOn_eq_cons] at hname
    have hfirst := hname _ List.mem_cons_self
    simp [isIdentifier, isNameStart] at hfirst
  | field name => rw [Key.eq_of_ofText_eq_field h]

/-- What an entry has to be, by what its key stands for. -/
theorem isEntry_iff {inBlock : Bool} {key : String} {v : Value} :
    IsEntry items inBlock key v ↔
      match Key.ofText key with
      | .combinator _ => ∃ l, v = .array l ∧ l ≠ [] ∧ ∀ w ∈ l, IsFilter items inBlock w
      | .block name => inBlock = false ∧ isIdentifier name = true ∧ IsFilter items true v
      | .field _ => IsFieldName key ∧ IsCondition items v := by
  constructor
  · intro h
    cases h with
    | combinator c hkey hne hall =>
      rw [Key.ofText_eq_combinator_iff.2 hkey]
      exact ⟨_, rfl, hne, hall⟩
    | block inner hkey hv =>
      rw [Key.ofText_eq_block_iff.2 hkey]
      exact ⟨rfl, inner.isIdentifier_name, hv⟩
    | field hne hname hv =>
      rw [ofText_of_isFieldName hname hne]
      exact ⟨hname, hv⟩
  · intro h
    cases hkey : Key.ofText key with
    | combinator c =>
      rw [hkey] at h
      obtain ⟨l, rfl, hne, hall⟩ := h
      exact .combinator c (Key.ofText_eq_combinator_iff.1 hkey) hne hall
    | block name =>
      rw [hkey] at h
      obtain ⟨rfl, hname, hv⟩ := h
      exact .block ⟨name, hname⟩ (Key.ofText_eq_block_iff.1 hkey) hv
    | field name =>
      rw [hkey] at h
      exact .field (Key.ne_key_of_ofText hkey nofun) h.1 h.2

mutual

/-- A document has a clause exactly when it is a filter. -/
theorem isSome_bound_iff (qualifier : Option Identifier) : ∀ v : Value,
    (bound items qualifier (ofValue v)).isSome = true ↔ IsFilter items qualifier.isSome v
  | .object entries => by
    have hentries := isSome_boundEntries_iff qualifier entries
    rw [isSome_bound_object_iff, hentries]
    constructor
    · rintro ⟨hne, hall⟩
      exact .object hne hall
    · intro h
      cases h with
      | object hne hall => exact ⟨hne, hall⟩
  | .undefined | .null | .bool _ | .int _ | .bigInt _ | .float _ | .text _ | .date _ | .bytes _
  | .array _ => by
    simp only [ofValue, bound, Option.isSome_none, Bool.false_eq_true, false_iff]
    intro h
    cases h

theorem isSome_boundGiven_iff (qualifier : Option Identifier) (c : Combinator) : ∀ v : Value,
    (boundGiven items qualifier c v).isSome = true ↔
      ∃ l, v = .array l ∧ l ≠ [] ∧ ∀ w ∈ l, IsFilter items qualifier.isSome w
  | .array l => by
    have hl := isSome_boundItems_iff qualifier l
    rw [isSome_boundGiven_array_iff, hl]
    simp
  | .undefined | .null | .bool _ | .int _ | .bigInt _ | .float _ | .text _ | .date _ | .bytes _
  | .object _ => by simp [boundGiven, combinationOf, boundCombination]

theorem isSome_boundItems_iff (qualifier : Option Identifier) : ∀ l : List Value,
    (boundItems items qualifier (ofItems l)).isSome = true ↔
      ∀ v ∈ l, IsFilter items qualifier.isSome v
  | [] => by simp [ofItems, boundItems]
  | v :: l => by
    have hv := isSome_bound_iff qualifier v
    have hl := isSome_boundItems_iff qualifier l
    rw [List.forall_mem_cons, ← hv, ← hl, ofItems, boundItems]
    cases bound items qualifier (ofValue v) <;> cases boundItems items qualifier (ofItems l) <;>
      simp

theorem isSome_boundEntries_iff (qualifier : Option Identifier) :
    ∀ entries : List (String × Value),
      (boundEntries items qualifier (Value.counted entries)).isSome = true ↔
        ∀ e ∈ Value.counted entries, IsEntry items qualifier.isSome e.1 e.2
  | [] => by simp [Value.counted, boundEntries]
  | (key, v) :: l => by
    have hl := isSome_boundEntries_iff qualifier l
    have hgiven := fun c => isSome_boundGiven_iff qualifier c v
    have hv := fun inner => isSome_bound_iff (some inner) v
    rw [Value.counted]
    cases h : Value.counts key v l with
    | false => exact hl
    | true =>
      rw [if_pos rfl, List.forall_mem_cons, ← hl, isEntry_iff, boundEntries, isSome_front,
        boundEntry]
      refine and_congr_left' ?_
      cases hkey : Key.ofText key with
      | combinator c => exact hgiven c
      | block name =>
        simp only [isIdentifier_iff]
        cases halias : blockAlias qualifier name with
        | error e =>
          simp only [Except.toOption, Option.bind_eq_bind, Option.bind_none, Option.isSome_none,
            Bool.false_eq_true, false_iff]
          rintro ⟨hnone, ⟨inner, hinner⟩, -⟩
          rw [Option.isSome_eq_false_iff, Option.isNone_iff_eq_none] at hnone
          rw [blockAlias_eq_ok_iff.2 ⟨hnone, hinner⟩] at halias
          cases halias
        | ok inner =>
          obtain ⟨rfl, hinner⟩ := blockAlias_eq_ok_iff.1 halias
          simp only [Except.toOption, Option.bind_eq_bind, Option.bind_some, hv]
          exact ⟨fun h => ⟨rfl, ⟨inner, hinner⟩, h⟩, fun h => h.2.2⟩
      | field name =>
        have hu : v.isUndefined = false := by
          simp only [Value.counts, Bool.and_eq_true, Bool.not_eq_true'] at h
          exact h.1
        obtain rfl := Key.eq_of_ofText_eq_field hkey
        exact isSome_boundField_iff hu

end

end Filter

/-- **Which documents compile**: the filters whose size is within the limits. -/
theorem compiles_iff_isFilter (limits : Limits) (v : Value) :
    (∃ f, compile limits v = .ok f) ↔
      IsFilter limits.listItems false v ∧ v.depth ≤ limits.nestingDepth ∧
        v.operators ≤ limits.operators := by
  rw [← Filter.depth_ofValue, ← Filter.operators_ofValue]
  have hbound : ((Filter.ofValue v).bound limits.listItems none).isSome = true ↔ _ :=
    Filter.isSome_bound_iff none v
  rw [Option.isSome_none, Option.isSome_iff_exists] at hbound
  rw [← hbound]
  constructor
  · rintro ⟨f, h⟩
    obtain ⟨b, hb, hd, hn, -⟩ := compile_eq_ok_iff.1 h
    exact ⟨⟨b, hb⟩, hd, hn⟩
  · rintro ⟨⟨b, hb⟩, hd, hn⟩
    exact ⟨_, compile_eq_ok_iff.2 ⟨b, hb, hd, hn, rfl⟩⟩

end BoundSql
