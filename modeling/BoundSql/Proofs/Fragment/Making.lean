import BoundSql.Proofs.Filter.Meaning

/-!
# What a fragment is made of

A fragment is made of a value, of a name or of a list of values, and each of these may be refused.
`failure?` is the reason why there is no result. A list is refused for itself first, because it is
empty or too long, and then for the first of its items that has no binding
(`Fragment.failure?_ofList`). A list that is not refused has a placeholder for each of its items.
-/

namespace BoundSql

/-! ## Failures -/

section Failure

variable {α β : Type}

/-- Why there is no result, if there is none. -/
def failure? : Except Error α → Option Error
  | .ok _ => none
  | .error e => some e

theorem failure?_map (f : α → β) (x : Except Error α) : failure? (x.map f) = failure? x := by
  cases x <;> rfl

/-- Of one result in front of others the first failure counts. -/
theorem failure?_cons (x : Except Error α) (xs : Except Error (List α)) :
    failure? (do let a ← x; let as ← xs; pure (a :: as)) = (failure? x).or (failure? xs) := by
  cases x <;> cases xs <;> rfl

end Failure

/-- A list of values fails as the first of them that has no binding. -/
theorem Value.failure?_bindAll (l : List Value) :
    failure? (Value.bindAll l) = l.findSome? fun v => failure? v.bind := by
  induction l with
  | nil => rfl
  | cons v l ih =>
    rw [Value.bindAll, failure?_cons, ih, List.findSome?_cons]
    cases failure? v.bind <;> rfl

namespace Fragment

theorem append_assoc (f g h : Fragment) : f ++ g ++ h = f ++ (g ++ h) := by
  ext1 <;> simp [String.append_assoc]

@[simp] theorem empty_append (f : Fragment) : {} ++ f = f := by
  ext1 <;> simp

@[simp] theorem append_empty (f : Fragment) : f ++ {} = f := by
  ext1 <;> simp

/-! ## Values and names -/

theorem eq_of_ofValue {v : Value} {f : Fragment} (h : ofValue v = .ok f) :
    f = ofBinding v.coerced := by
  rw [ofValue] at h
  cases hb : v.bind with
  | error e =>
    rw [hb] at h
    cases h
  | ok b =>
    rw [hb] at h
    cases h
    rw [coerced_of_bind (toOption_eq_some_iff.2 hb)]

theorem eq_of_ofName {name : String} {f : Fragment} (h : ofName name = .ok f) :
    ∃ i : Identifier, i.name = name ∧ f = raw i.quoted := by
  rw [ofName] at h
  cases hi : Identifier.ofName name with
  | error e =>
    rw [hi] at h
    cases h
  | ok i =>
    rw [hi] at h
    cases h
    exact ⟨i, Identifier.ofName_eq_ok_iff.1 hi, rfl⟩

/-! ## Lists -/

/-- Why a list of values is refused, if it is. -/
theorem failure?_ofList (op : Operator) (l : List Value) (max : Nat) :
    failure? (ofList op l max) =
      if l.isEmpty then some (.emptyList op)
      else if max < l.length then some (.listTooLong op l.length max)
      else l.findSome? fun v => failure? v.bind := by
  rw [ofList]
  split
  · rfl
  split
  · rfl
  · rw [← Value.failure?_bindAll]
    cases Value.bindAll l <;> rfl

/-- A list that is not refused has a placeholder for each item, bound to it. -/
theorem eq_of_ofList {op : Operator} {l : List Value} {max : Nat} {f : Fragment}
    (h : ofList op l max = .ok f) :
    f = { text := Test.placeholderList l.length, bindings := l.map Value.coerced } := by
  rw [ofList] at h
  split at h
  · cases h
  split at h
  · cases h
  · cases hbs : Value.bindAll l with
    | error e =>
      rw [hbs] at h
      cases h
    | ok bs =>
      rw [hbs] at h
      cases h
      have hlength := (Value.bindAll_eq_ok_iff.1 hbs).length_eq
      have hcoerced := coerced_of_bindAll (toOption_eq_some_iff.2 hbs)
      have htexts : (bs.map ofBinding).map text = List.replicate l.length "?" := by
        rw [List.map_map, hlength]
        exact List.map_const'
      have hbindings : (bs.map ofBinding).flatMap bindings = bs := by
        rw [List.flatMap_map]
        exact List.flatMap_singleton' bs
      rw [join, wrap, htexts, hbindings, hcoerced]
      rfl

end Fragment

end BoundSql
