import BoundSql.Filter.Compile

/-!
# Which entries count

The entries of an object do not all count. In a filter object, an undefined entry does not, nor
does a key with a dollar sign whose value is no object, nor a combinator that a later entry gives
again. In an operator object, an undefined operand does not, unless it is to be different from it,
and once the object asks whether the field is present, nothing else in it does.

`Value.counts` and `Value.counted` say so for filter objects, `Operator.asked` and
`Operator.firstPresence` for operator objects. `Filter.partsOf_cons` says what an entry that counts
does to the parts of a filter object.
-/

namespace BoundSql

namespace Value

/-- Whether a value is an object. -/
def isObject : Value → Bool
  | object _ => true
  | _ => false

/-- Whether an entry of a filter object counts, in front of the entries after it. -/
def counts (key : String) (v : Value) (later : List (String × Value)) : Bool :=
  !v.isUndefined &&
    match Key.ofText key with
    | .combinator _ => !later.any fun p => p.1 = key && !p.2.isUndefined
    | .block _ => v.isObject
    | .field _ => true

/-- The entries of a filter object that count, in order. -/
def counted : List (String × Value) → List (String × Value)
  | [] => []
  | (key, v) :: l => if counts key v l then (key, v) :: counted l else counted l

end Value

namespace Operator

/-- Whether an entry of an operator object asks for a test of its own. -/
def asked (key : String) (operand : Value) : Bool :=
  key ≠ present.name && (!operand.isUndefined || key = notEqual.name)

/-- What an operator object first gives to the question whether the field is present. -/
def firstPresence (entries : List (String × Value)) : Option Value :=
  (entries.find? fun p => p.1 = present.name && !p.2.isUndefined).map Prod.snd

/-- The number of operators that a condition uses up. -/
def used : Value → Nat
  | .object entries =>
    if (firstPresence entries).isSome then 1 else entries.countP fun p => asked p.1 p.2
  | _ => 0

/-! ## Operator objects whose keys are all known -/

theorem name_injective {op op' : Operator} (h : op.name = op'.name) : op = op' := by
  have := congrArg ofName? h
  rw [ofName?_name, ofName?_name] at this
  exact Option.some.inj this

@[simp] theorem name_inj {op op' : Operator} : op.name = op'.name ↔ op = op' :=
  ⟨name_injective, fun h => h ▸ rfl⟩

theorem ofName?_eq_some_iff {key : String} {op : Operator} :
    ofName? key = some op ↔ key = op.name := by
  constructor
  · intro h
    have := List.find?_some h
    exact (of_decide_eq_true this).symm
  · rintro rfl
    exact ofName?_name op

/-- The entries that some operators with their operands are written as. -/
def entriesOf (ops : List (Operator × Value)) : List (String × Value) :=
  ops.map fun p => (p.1.name, p.2)

/-- What some operators are written as is read as these operators. -/
@[simp] theorem ofEntries_entriesOf (ops : List (Operator × Value)) :
    ofEntries (entriesOf ops) = .ok ops := by
  induction ops with
  | nil => rfl
  | cons p ops ih =>
    have hcons : entriesOf (p :: ops) = (p.1.name, p.2) :: entriesOf ops := rfl
    rw [hcons, ofEntries, ofName?_name, ih]
    rfl

/-- An operator object is read when all its keys are known, and it is then what the operators that
were read are written as. -/
theorem ofEntries_eq_ok_iff {entries : List (String × Value)} {ops : List (Operator × Value)} :
    ofEntries entries = .ok ops ↔ entries = entriesOf ops := by
  constructor
  · intro h
    induction entries generalizing ops with
    | nil =>
      cases h
      rfl
    | cons e l ih =>
      obtain ⟨key, operand⟩ := e
      rw [ofEntries] at h
      cases hkey : ofName? key with
      | none =>
        rw [hkey] at h
        cases h
      | some op =>
        cases hl : ofEntries l with
        | error e =>
          rw [hkey, hl] at h
          cases h
        | ok ops' =>
          rw [hkey, hl] at h
          cases h
          rw [ih hl, ofName?_eq_some_iff.1 hkey]
          rfl
  · rintro rfl
    exact ofEntries_entriesOf ops

@[simp] theorem firstPresence_entriesOf (ops : List (Operator × Value)) :
    firstPresence (entriesOf ops) = presence? ops := by
  have hp : ((fun p : String × Value => decide (p.1 = present.name) && !p.2.isUndefined) ∘
      fun p : Operator × Value => (p.1.name, p.2)) =
      fun p => decide (p.1 = present) && !p.2.isUndefined := by
    funext p
    simp
  rw [firstPresence, entriesOf, List.find?_map, Option.map_map, hp, presence?]
  rfl

theorem asked_name (op : Operator) (operand : Value) :
    asked op.name operand = !(op = present || (operand.isUndefined && op ≠ notEqual)) := by
  simp [asked]

end Operator

/-! ## What keys stand for -/

namespace Key

theorem ofText_eq_combinator_iff {key : String} {c : Combinator} :
    ofText key = .combinator c ↔ key = c.key := by
  constructor
  · intro h
    unfold ofText at h
    split at h
    · cases h
      assumption
    split at h
    · cases h
      assumption
    · split at h <;> cases h
  · rintro rfl
    cases c <;> rfl

@[simp] theorem ofText_key (c : Combinator) : ofText c.key = .combinator c :=
  ofText_eq_combinator_iff.2 rfl

/-- A key that stands for an alias block or a field is that of no combinator. -/
theorem ne_key_of_ofText {key : String} {k : Key} (h : ofText key = k)
    (hk : ∀ c, k ≠ .combinator c) (c : Combinator) : key ≠ c.key := by
  rintro rfl
  exact hk c (h.symm.trans (ofText_key c))

@[simp] theorem ofText_dollar (name : String) : ofText ("$" ++ name) = .block name := by
  have hlist : ("$" ++ name).toList = '$' :: name.toList := by simp
  have hne : ∀ c : Combinator, "$" ++ name ≠ c.key := by
    intro c h
    have := congrArg (fun s => s.toList.head?) h
    cases c <;> simp [Combinator.key] at this
  simp only [ofText, if_neg (hne _), hlist, String.ofList_toList]

theorem ofText_eq_block_iff {key name : String} :
    ofText key = .block name ↔ key = "$" ++ name := by
  constructor
  · intro h
    unfold ofText at h
    split at h
    · cases h
    split at h
    · cases h
    · split at h
      · next cs hcs =>
        cases h
        apply String.toList_injective
        simp [hcs]
      · cases h
  · rintro rfl
    exact ofText_dollar name

theorem eq_of_ofText_eq_field {key name : String} (h : ofText key = .field name) : name = key := by
  unfold ofText at h
  split at h
  · cases h
  split at h
  · cases h
  · split at h
    · cases h
    · cases h
      rfl

end Key

/-! ## The parts of a filter object -/

namespace Filter

/-- What a combinator was given among the parts of a filter object. -/
def Parts.combination (p : Parts) : Combinator → Combination Filter
  | .and => p.conj
  | .or => p.disj

/-- The parts with what a combinator was given in place of its absence. -/
def Parts.giving (p : Parts) (c : Combinator) (given : Combination Filter) : Parts :=
  match c with
  | .and => { p with conj := given }
  | .or => { p with disj := given }

/-- What the entry of a key that counts adds to the parts of the entries after it. -/
inductive Parts.Adds (key : String) (v : Value) (p : Parts) : Parts → Prop
  | combinator (c : Combinator) : Key.ofText key = .combinator c → p.combination c = .absent →
      Adds key v p (p.giving c (combinationOf v))
  | block (name : String) : Key.ofText key = .block name → v.isObject = true →
      Adds key v p { p with blocks := (name, ofValue v) :: p.blocks }
  | field : Key.ofText key = .field key →
      Adds key v p { p with fields := (key, v) :: p.fields }

theorem combinationOf_ne_absent (v : Value) : combinationOf v ≠ .absent := by
  cases v <;> simp [combinationOf]

theorem orElse_eq_absent_iff {α : Type} {a b : Combination α} :
    a.orElse b = .absent ↔ a = .absent ∧ b = .absent := by
  cases a <;> simp [Combination.orElse]

theorem orElse_of_ne_absent {α : Type} {a : Combination α} (h : a ≠ .absent)
    (b : Combination α) : a.orElse b = a := by
  cases a with
  | absent => exact absurd rfl h
  | notArray => rfl
  | items l => rfl

/-- What a combinator was given is absent exactly when no entry that is defined has its key. -/
theorem combination_partsOf_eq_absent_iff {c : Combinator} {l : List (String × Value)} :
    (partsOf l).combination c = .absent ↔
      (l.any fun p => p.1 = c.key && !p.2.isUndefined) = false := by
  induction l with
  | nil => cases c <;> simp [partsOf, Parts.combination]
  | cons e l ih =>
    obtain ⟨key, v⟩ := e
    rw [List.any_cons, Bool.or_eq_false_iff, ← ih, partsOf]
    by_cases hu : v.isUndefined = true
    · simp [hu]
    · have hkey : ((key, v).1 = c.key && !(key, v).2.isUndefined) = false ↔
          Key.ofText key ≠ .combinator c := by
        simp [hu, Key.ofText_eq_combinator_iff]
      rw [hkey]
      simp only [hu]
      cases h : Key.ofText key with
      | combinator c' =>
        cases c <;> cases c' <;>
          simp [Parts.combination, orElse_eq_absent_iff, combinationOf_ne_absent]
      | block name => cases c <;> cases v <;> simp [Parts.combination]
      | field name => cases c <;> simp [Parts.combination]

theorem partsOf_cons_of_not_counts {key : String} {v : Value} {l : List (String × Value)}
    (h : Value.counts key v l = false) : partsOf ((key, v) :: l) = partsOf l := by
  rw [partsOf]
  by_cases hu : v.isUndefined = true
  · simp only [hu, if_true]
  · simp only [Value.counts, hu, Bool.not_false, Bool.true_and] at h
    simp only [hu]
    cases hk : Key.ofText key with
    | combinator c =>
      simp only [hk, Bool.not_eq_false'] at h
      obtain rfl := Key.ofText_eq_combinator_iff.1 hk
      have hgiven : (partsOf l).combination c ≠ .absent := fun h' => by
        rw [combination_partsOf_eq_absent_iff.1 h'] at h
        cases h
      cases c
      · simp [orElse_of_ne_absent (a := (partsOf l).conj) hgiven]
      · simp [orElse_of_ne_absent (a := (partsOf l).disj) hgiven]
    | block name =>
      simp only [hk] at h
      cases v with
      | object entries => cases h
      | _ => simp
    | field name => simp [hk] at h

/-- **What an entry that counts adds** to the parts of a filter object. -/
theorem partsOf_cons_of_counts {key : String} {v : Value} {l : List (String × Value)}
    (h : Value.counts key v l = true) :
    Parts.Adds key v (partsOf l) (partsOf ((key, v) :: l)) := by
  simp only [Value.counts, Bool.and_eq_true, Bool.not_eq_true'] at h
  obtain ⟨hu, h⟩ := h
  rw [partsOf]
  simp only [hu]
  cases hk : Key.ofText key with
  | combinator c =>
    simp only [hk, Bool.not_eq_true'] at h
    have habsent : (partsOf l).combination c = .absent := by
      rw [combination_partsOf_eq_absent_iff, ← Key.ofText_eq_combinator_iff.1 hk]
      exact h
    have hadds := Parts.Adds.combinator (v := v) c hk habsent
    cases c
    · simpa [Parts.giving, show (partsOf l).conj = .absent from habsent, Combination.orElse]
        using hadds
    · simpa [Parts.giving, show (partsOf l).disj = .absent from habsent, Combination.orElse]
        using hadds
  | block name =>
    simp only [hk] at h
    cases v with
    | object entries =>
      have hadds := Parts.Adds.block (p := partsOf l) name hk h
      rw [ofValue] at hadds
      simpa using hadds
    | _ => cases h
  | field name =>
    obtain rfl := Key.eq_of_ofText_eq_field hk
    simpa using Parts.Adds.field (v := v) (p := partsOf l) hk

end Filter

end BoundSql
