import BoundSql.Proofs.Filter.Conjuncts

/-!
# The turns of a filter object

The entries of a filter object are not compiled in the order in which they stand. First it is the
turn of what gives `"and"`, then of what gives `"or"`, then of the fields and then of the alias
blocks; only within a turn does the order count. `Value.arranged` puts entries in the order of their
turns. It keeps what stands in each turn (`Value.inTurn_arranged`), and a filter object is read no
other way for it (`Filter.partsOf_arranged`), since each turn is read for itself.
-/

namespace BoundSql

/-- The turns in which the entries of a filter object are compiled. -/
inductive Turn
  | conj
  | disj
  | field
  | block
  deriving DecidableEq, Repr

namespace Turn

/-- All turns, in order. -/
def all : List Turn :=
  [conj, disj, field, block]

/-- The turn of a combinator. -/
def ofCombinator : Combinator → Turn
  | .and => conj
  | .or => disj

/-- The turn of a key. -/
def ofKey : Key → Turn
  | .combinator c => ofCombinator c
  | .field _ => field
  | .block _ => block

end Turn

namespace Value

/-- The entries of a filter object that have the same turn, in the order in which they stand. -/
def inTurn (t : Turn) (entries : List (String × Value)) : List (String × Value) :=
  entries.filter fun e => Turn.ofKey (Key.ofText e.1) = t

/-- The entries of a filter object turn by turn. -/
def arranged (entries : List (String × Value)) : List (String × Value) :=
  Turn.all.flatMap fun t => inTurn t entries

theorem inTurn_inTurn (t t' : Turn) (entries : List (String × Value)) :
    inTurn t (inTurn t' entries) = if t = t' then inTurn t entries else [] := by
  rw [inTurn, inTurn, List.filter_filter]
  split
  · next h =>
    subst h
    simp only [Bool.and_self]
    rfl
  · next h =>
    refine List.filter_eq_nil_iff.2 fun e _ => ?_
    rw [Bool.and_eq_true, decide_eq_true_eq, decide_eq_true_eq]
    exact fun ⟨ht, ht'⟩ => h (ht.symm.trans ht')

/-- Arranging entries changes nothing within a turn. -/
@[simp] theorem inTurn_arranged (t : Turn) (entries : List (String × Value)) :
    inTurn t (arranged entries) = inTurn t entries := by
  have hturns : inTurn t (arranged entries) =
      Turn.all.flatMap fun t' => inTurn t (inTurn t' entries) := List.filter_flatMap
  rw [hturns]
  simp only [inTurn_inTurn]
  cases t <;> simp [Turn.all]

@[simp] theorem arranged_arranged (entries : List (String × Value)) :
    arranged (arranged entries) = arranged entries := by
  rw [arranged]
  simp only [inTurn_arranged]
  rfl

theorem mem_of_mem_arranged {e : String × Value} {entries : List (String × Value)}
    (h : e ∈ arranged entries) : e ∈ entries := by
  obtain ⟨t, -, ht⟩ := List.mem_flatMap.1 h
  exact List.mem_of_mem_filter ht

/-- Whatever gives a combinator has the turn of the combinator. -/
@[simp] theorem given_inTurn (c : Combinator) (entries : List (String × Value)) :
    given c (inTurn (.ofCombinator c) entries) = given c entries := by
  rw [given, inTurn, List.countP_filter, given]
  refine List.countP_congr fun e _ => ?_
  simp only [Bool.and_eq_true, decide_eq_true_eq, and_iff_left_iff_imp]
  rintro ⟨hkey, -⟩
  rw [Key.ofText_eq_combinator_iff.2 hkey]
  rfl

@[simp] theorem given_arranged (c : Combinator) (entries : List (String × Value)) :
    given c (arranged entries) = given c entries := by
  rw [← given_inTurn, inTurn_arranged, given_inTurn]

end Value

namespace Filter

/-- The part of some parts that has its turn. -/
def Parts.only (p : Parts) : Turn → Parts
  | .conj => { conj := p.conj }
  | .disj => { disj := p.disj }
  | .field => { fields := p.fields }
  | .block => { blocks := p.blocks }

theorem Parts.eq_of_only_eq {p p' : Parts} (h : ∀ t, p.only t = p'.only t) : p = p' := by
  obtain ⟨hconj, -⟩ := Parts.mk.inj (h .conj)
  obtain ⟨-, hdisj, -⟩ := Parts.mk.inj (h .disj)
  obtain ⟨-, -, hfields, -⟩ := Parts.mk.inj (h .field)
  obtain ⟨-, -, -, hblocks⟩ := Parts.mk.inj (h .block)
  calc p = ⟨p.conj, p.disj, p.fields, p.blocks⟩ := rfl
    _ = ⟨p'.conj, p'.disj, p'.fields, p'.blocks⟩ := by rw [hconj, hdisj, hfields, hblocks]

/-- An entry adds to no part but that of its turn. -/
theorem only_partsOf_cons {t : Turn} {key : String} (ht : Turn.ofKey (Key.ofText key) ≠ t)
    (v : Value) (l : List (String × Value)) :
    (partsOf ((key, v) :: l)).only t = (partsOf l).only t := by
  rw [partsOf]
  cases v.isUndefined with
  | true => rfl
  | false =>
    cases hkey : Key.ofText key with
    | combinator c =>
      rw [hkey] at ht
      cases c <;> cases t <;> first | rfl | exact absurd rfl ht
    | block name =>
      rw [hkey] at ht
      cases v <;> cases t <;> first | rfl | exact absurd rfl ht
    | field name =>
      rw [hkey] at ht
      cases t <;> first | rfl | exact absurd rfl ht

/-- The entries of a turn make the part of that turn. -/
theorem partsOf_inTurn (t : Turn) (entries : List (String × Value)) :
    partsOf (Value.inTurn t entries) = (partsOf entries).only t := by
  induction entries with
  | nil => cases t <;> rfl
  | cons e l ih =>
    obtain ⟨key, v⟩ := e
    rw [Value.inTurn, List.filter_cons, ← Value.inTurn]
    split
    · next ht =>
      obtain rfl := of_decide_eq_true ht
      rw [partsOf, partsOf, ih]
      cases v.isUndefined with
      | true => rfl
      | false =>
        cases Key.ofText key with
        | combinator c => cases c <;> rfl
        | block name => cases v <;> rfl
        | field name => rfl
    · next ht =>
      rw [decide_eq_true_eq] at ht
      rw [ih, only_partsOf_cons ht]

/-- A filter object is read turn by turn. -/
@[simp] theorem partsOf_arranged (entries : List (String × Value)) :
    partsOf (Value.arranged entries) = partsOf entries := by
  refine Parts.eq_of_only_eq fun t => ?_
  rw [← partsOf_inTurn, Value.inTurn_arranged, partsOf_inTurn]

end Filter

end BoundSql
