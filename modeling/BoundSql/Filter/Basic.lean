import BoundSql.Operator
import BoundSql.Value.Basic

/-!
# Filters

A filter is a document read as a question about rows. `Filter.ofValue` reads it: each filter
object falls apart into what its keys ask for. The key `"and"` and the key `"or"` take a list of
filters; a key that begins with a dollar sign opens the block of a table alias; every other key
names a field.

Reading never fails. What cannot be a filter is kept as such and refused later, when its turn
comes. Two things are dropped: entries that are undefined, and alias blocks that are not objects.
-/

namespace BoundSql

/-- What a combinator was given. -/
inductive Combination (α : Type)
  /-- The combinator does not occur. -/
  | absent
  | notArray
  | items (l : List α)
  deriving Repr

/-- What a combinator was given, if it was given anything, and something else if not. -/
def Combination.orElse {α : Type} : Combination α → Combination α → Combination α
  | .absent, c => c
  | given, _ => given

/-- A filter as it is asked for: what its combinators were given, its fields with their
conditions, and its alias blocks. -/
inductive Filter
  /-- A value that is not an object. -/
  | notObject (shape : Shape)
  | object (conj disj : Combination Filter) (fields : List (String × Value))
      (blocks : List (String × Filter))

/-- What a key of a filter object stands for. -/
inductive Key
  | combinator (c : Combinator)
  /-- The block of a table alias. -/
  | block (name : String)
  | field (name : String)
  deriving DecidableEq, Repr

/-- What a key stands for. -/
def Key.ofText (key : String) : Key :=
  if key = Combinator.and.key then .combinator .and
  else if key = Combinator.or.key then .combinator .or
  else
    match key.toList with
    | '$' :: name => .block (String.ofList name)
    | _ => .field key

namespace Filter

/-- What the entries of a filter object ask for. -/
structure Parts where
  conj : Combination Filter := .absent
  disj : Combination Filter := .absent
  fields : List (String × Value) := []
  blocks : List (String × Filter) := []

/-- The filter object of its parts. -/
def ofParts (p : Parts) : Filter :=
  .object p.conj p.disj p.fields p.blocks

mutual

/-- The filter that a value is read as. -/
def ofValue : Value → Filter
  | .object entries => ofParts (partsOf entries)
  | v => .notObject v.shape

/-- What a combinator was given. -/
def combinationOf : Value → Combination Filter
  | .array items => .items (ofItems items)
  | _ => .notArray

/-- The filters that a list of values is read as. -/
def ofItems : List Value → List Filter
  | [] => []
  | v :: l => ofValue v :: ofItems l

/-- The parts of a list of entries. Fields and blocks keep their order; a combinator that occurs
again replaces what stood before. -/
def partsOf : List (String × Value) → Parts
  | [] => {}
  | (key, v) :: l =>
    let p := partsOf l
    if v.isUndefined then p
    else
      match Key.ofText key with
      | .combinator .and => { p with conj := p.conj.orElse (combinationOf v) }
      | .combinator .or => { p with disj := p.disj.orElse (combinationOf v) }
      | .block name =>
        match v with
        | .object entries => { p with blocks := (name, ofParts (partsOf entries)) :: p.blocks }
        | _ => p
      | .field name => { p with fields := (name, v) :: p.fields }

end

end Filter

end BoundSql
