import BoundSql.Proofs.Filter.Bound
import BoundSql.Proofs.Filter.Entries

/-!
# The clauses of a filter object

A filter object asks for a clause for each entry that counts. `Filter.boundEntry` is the clause of
an entry. The compiler sorts the entries into parts first, so the clauses come in another order
than the entries; nothing is lost and nothing added (`boundParts_perm`).
-/

namespace BoundSql

/-! ## Clauses that may be missing -/

namespace BoundClause

/-- A clause in front of others, if none is missing. -/
def front (b : Option BoundClause) (bs : Option (List BoundClause)) :
    Option (List BoundClause) := do
  let b ← b
  let bs ← bs
  some (b :: bs)

/-- Some clauses and then others, if none is missing. -/
def both (as bs : Option (List BoundClause)) : Option (List BoundClause) := do
  let as ← as
  let bs ← bs
  some (as ++ bs)

/-- The same clauses in some order, or clauses missing on both sides. -/
abbrev Reordered : Option (List BoundClause) → Option (List BoundClause) → Prop :=
  Option.Rel List.Perm

variable {a b : Option BoundClause} {as bs cs : Option (List BoundClause)}

theorem Reordered.refl (bs : Option (List BoundClause)) : Reordered bs bs := by
  cases bs with
  | none => exact .none
  | some l => exact .some (List.Perm.refl l)

theorem Reordered.trans (h : Reordered as bs) (h' : Reordered bs cs) : Reordered as cs := by
  cases h with
  | none => exact h'
  | some h =>
    cases h' with
    | some h' => exact .some (h.trans h')

theorem Reordered.both (as : Option (List BoundClause)) (h : Reordered bs cs) :
    Reordered (both as bs) (both as cs) := by
  cases as with
  | none => exact .none
  | some l =>
    cases h with
    | none => exact .none
    | some h => exact .some (h.append_left l)

theorem Reordered.front (b : Option BoundClause) (h : Reordered bs cs) :
    Reordered (front b bs) (front b cs) := by
  cases b with
  | none => exact .none
  | some b =>
    cases h with
    | none => exact .none
    | some h => exact .some (h.cons b)

theorem both_front (b : Option BoundClause) (as bs : Option (List BoundClause)) :
    both (front b as) bs = front b (both as bs) := by
  cases b <;> cases as <;> cases bs <;> rfl

/-- A clause that stands among others may as well stand in front of them. -/
theorem reordered_both_front (as : Option (List BoundClause)) (b : Option BoundClause)
    (bs : Option (List BoundClause)) : Reordered (both as (front b bs)) (front b (both as bs)) := by
  cases as with
  | none => cases b <;> exact .none
  | some l =>
    cases b with
    | none => exact .none
    | some b =>
      cases bs with
      | none => exact .none
      | some m => exact .some List.perm_middle

/-- The clauses of a filter object make one clause unless there are none. -/
theorem isSome_conjunction {l : List BoundClause} : (conjunction l).isSome = true ↔ l ≠ [] := by
  match l with
  | [] => simp [conjunction]
  | [b] => simp [conjunction]
  | b :: b' :: l => simp [conjunction]

end BoundClause

/-! ## The clauses of entries -/

namespace Filter

open BoundClause

variable (items : Nat) (qualifier : Option Identifier)

/-- The clauses that the parts of a filter object ask for. -/
def boundParts (p : Parts) : Option (List BoundClause) :=
  both (boundCombination items qualifier .and p.conj)
    (both (boundCombination items qualifier .or p.disj)
      (both (boundFields items qualifier p.fields) (boundBlocks items qualifier p.blocks)))

/-- The clause of what a combinator is given. -/
def boundGiven (c : Combinator) (v : Value) : Option BoundClause :=
  (boundCombination items qualifier c (combinationOf v)).bind List.head?

/-- The clause that an entry of a filter object asks for. -/
def boundEntry (key : String) (v : Value) : Option BoundClause :=
  match Key.ofText key with
  | .combinator c => boundGiven items qualifier c v
  | .block name => do
    let inner ← (blockAlias qualifier name).toOption
    bound items (some inner) (ofValue v)
  | .field name => boundField items qualifier name v

/-- The clauses that some entries ask for, in order. -/
def boundEntries : List (String × Value) → Option (List BoundClause)
  | [] => some []
  | (key, v) :: l => front (boundEntry items qualifier key v) (boundEntries l)

variable {items qualifier}

theorem bound_object (entries : List (String × Value)) :
    bound items qualifier (ofValue (.object entries)) =
      (boundParts items qualifier (partsOf entries)).bind BoundClause.conjunction := by
  rw [ofValue, ofParts, bound, boundParts]
  simp only [both, Option.bind_eq_bind, Option.bind_assoc, Option.bind_some, List.append_assoc]

/-- A combinator asks for a single clause. -/
theorem boundCombination_combinationOf (c : Combinator) (v : Value) :
    boundCombination items qualifier c (combinationOf v) =
      front (boundGiven items qualifier c v) (boundCombination items qualifier c .absent) := by
  cases v with
  | array l =>
    simp only [boundGiven, combinationOf, boundCombination]
    cases boundItems items qualifier (ofItems l) with
    | none => rfl
    | some bs => cases bs <;> rfl
  | _ => rfl

/-- The clause of an entry that counts stands among those of the entries after it. -/
theorem boundParts_adds {key : String} {v : Value} {p p' : Parts} (h : Parts.Adds key v p p') :
    Reordered (boundParts items qualifier p')
      (front (boundEntry items qualifier key v) (boundParts items qualifier p)) := by
  cases h with
  | combinator c hkey habsent =>
    rw [boundEntry, hkey]
    cases c with
    | and =>
      simp only [Parts.combination] at habsent
      simp only [boundParts, Parts.giving, habsent]
      rw [boundCombination_combinationOf, both_front]
      exact .refl _
    | or =>
      simp only [Parts.combination] at habsent
      simp only [boundParts, Parts.giving, habsent]
      rw [boundCombination_combinationOf, both_front]
      exact reordered_both_front ..
  | block name hkey hobject =>
    rw [boundEntry, hkey]
    have hblocks : boundBlocks items qualifier ((name, ofValue v) :: p.blocks) =
        front (do
          let inner ← (blockAlias qualifier name).toOption
          bound items (some inner) (ofValue v)) (boundBlocks items qualifier p.blocks) := by
      simp only [boundBlocks, front, Option.bind_eq_bind, Option.bind_assoc]
    simp only [boundParts, hblocks]
    refine ((reordered_both_front ..).both _).both _ |>.trans ?_
    exact ((reordered_both_front ..).both _).trans (reordered_both_front ..)
  | field hkey =>
    rw [boundEntry, hkey]
    have hfields : boundFields items qualifier ((key, v) :: p.fields) =
        front (boundField items qualifier key v) (boundFields items qualifier p.fields) := rfl
    simp only [boundParts, hfields, both_front]
    exact ((reordered_both_front ..).both _).trans (reordered_both_front ..)

/-- **The clauses of a filter object** are those of its entries that count, in some order. -/
theorem boundParts_perm (entries : List (String × Value)) :
    Reordered (boundParts items qualifier (partsOf entries))
      (boundEntries items qualifier (Value.counted entries)) := by
  induction entries with
  | nil => exact .some (List.Perm.refl [])
  | cons e l ih =>
    obtain ⟨key, v⟩ := e
    rw [Value.counted]
    cases h : Value.counts key v l with
    | false =>
      rw [partsOf_cons_of_not_counts h]
      exact ih
    | true => exact (boundParts_adds (partsOf_cons_of_counts h)).trans (ih.front _)

end Filter

end BoundSql
