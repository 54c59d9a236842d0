import BoundSql.Proofs.Compilation.Lockstep
import BoundSql.Proofs.Filter.Grammar
import Mathlib.Data.List.Forall2

/-!
# Filters that differ in their operands only

Two documents are `Alike` when they have the same tree, the same keys in the same order, and differ
at most in the scalars and patterns that are compared with. What the compiler asks of such operands
it learns of both alike: whether they are undefined or null, whether they have bindings and how
many.
-/

namespace BoundSql

/-! ## Documents that are alike -/

/-- The same value, or two scalars of whatever type that can be bound. -/
def AlikeScalar (v w : Value) : Prop :=
  v = w ∨ v.IsScalar ∧ w.IsScalar

/-- Operands that an operator does not tell apart. -/
inductive AlikeOperand (op : Operator) : Value → Value → Prop
  | same (v : Value) : AlikeOperand op v v
  | scalar {v w : Value} : op ∈ [.greater, .atLeast, .less, .atMost, .notEqual] → v.IsScalar →
      w.IsScalar → AlikeOperand op v w
  | list {l m : List Value} : op ∈ [.oneOf, .noneOf] → List.Forall₂ AlikeScalar l m →
      AlikeOperand op (.array l) (.array m)
  | pattern {s t : String} : op ∈ [.like, .likeNoCase, .regex] →
      AlikeOperand op (.text s) (.text t)

/-- Entries of operator objects with the same key, and with operands that are the same or that the
operator does not tell apart. -/
def AlikeOperator (e e' : String × Value) : Prop :=
  e.1 = e'.1 ∧ (e.2 = e'.2 ∨ ∃ op : Operator, e.1 = op.name ∧ AlikeOperand op e.2 e'.2)

/-- Conditions that differ in their operands only. -/
inductive AlikeCondition : Value → Value → Prop
  | same (v : Value) : AlikeCondition v v
  | scalar {v w : Value} : v.IsScalar → w.IsScalar → AlikeCondition v w
  | operators {l m : List (String × Value)} : List.Forall₂ AlikeOperator l m →
      AlikeCondition (.object l) (.object m)

mutual

/-- Documents that differ in the operands of their conditions only. -/
inductive Alike : Value → Value → Prop
  | notObject {v : Value} : v.isObject = false → Alike v v
  | object {l m : List (String × Value)} : AlikeEntries l m → Alike (.object l) (.object m)

/-- Lists of documents that are alike, one by one. -/
inductive AlikeItems : List Value → List Value → Prop
  | nil : AlikeItems [] []
  | cons {v w : Value} {l m : List Value} : Alike v w → AlikeItems l m →
      AlikeItems (v :: l) (w :: m)

/-- Entries with the same keys whose values are alike, one by one. -/
inductive AlikeEntries : List (String × Value) → List (String × Value) → Prop
  | nil : AlikeEntries [] []
  | cons {key : String} {v w : Value} {l m : List (String × Value)} : AlikeEntry key v w →
      AlikeEntries l m → AlikeEntries ((key, v) :: l) ((key, w) :: m)

/-- Values that are alike as what a key of a filter object is given. -/
inductive AlikeEntry : String → Value → Value → Prop
  | items {key : String} {c : Combinator} {l m : List Value} : Key.ofText key = .combinator c →
      AlikeItems l m → AlikeEntry key (.array l) (.array m)
  | notItems {key : String} {c : Combinator} {v : Value} : Key.ofText key = .combinator c →
      (∀ l, v ≠ .array l) → AlikeEntry key v v
  | block {key name : String} {v w : Value} : Key.ofText key = .block name → Alike v w →
      AlikeEntry key v w
  | field {key name : String} {v w : Value} : Key.ofText key = .field name →
      AlikeCondition v w → AlikeEntry key v w

end

mutual

/-- Every document is alike itself. -/
theorem Alike.refl : ∀ v : Value, Alike v v
  | .object entries => .object (AlikeEntries.refl entries)
  | .undefined | .null | .bool _ | .int _ | .bigInt _ | .float _ | .text _ | .date _ | .bytes _
  | .array _ => .notObject rfl

theorem AlikeItems.refl : ∀ l : List Value, AlikeItems l l
  | [] => .nil
  | v :: l => .cons (Alike.refl v) (AlikeItems.refl l)

theorem AlikeEntries.refl : ∀ l : List (String × Value), AlikeEntries l l
  | [] => .nil
  | (key, v) :: l => by
    refine .cons ?_ (AlikeEntries.refl l)
    cases hkey : Key.ofText key with
    | combinator c =>
      have hitems := AlikeGiven.refl v
      rcases hitems with ⟨l, rfl, hl⟩ | hne
      · exact .items hkey hl
      · exact .notItems hkey hne
    | block name => exact .block hkey (Alike.refl v)
    | field name => exact .field hkey (.same v)

theorem AlikeGiven.refl : ∀ v : Value,
    (∃ l, v = .array l ∧ AlikeItems l l) ∨ ∀ l, v ≠ .array l
  | .array l => .inl ⟨l, rfl, AlikeItems.refl l⟩
  | .undefined | .null | .bool _ | .int _ | .bigInt _ | .float _ | .text _ | .date _ | .bytes _
  | .object _ => .inr nofun

end

/-! ## Bindings of operands that are alike -/

theorem Value.IsScalar.exists_bind {v : Value} (h : v.IsScalar) : ∃ b, v.bind = .ok b := by
  cases h with
  | float hx =>
    rw [Value.bind, hx]
    exact ⟨_, rfl⟩
  | _ => exact ⟨_, rfl⟩

theorem Value.IsScalar.isNullish {v : Value} (h : v.IsScalar) : v.isNullish = false := by
  cases h <;> rfl

/-- Both values have a binding, or both are refused for the same reason. -/
theorem sameOutcome_bind {v w : Value} (h : AlikeScalar v w) :
    SameOutcome (fun _ _ => True) v.bind w.bind := by
  rcases h with rfl | ⟨hv, hw⟩
  · exact .refl (fun _ => trivial) _
  · obtain ⟨b, hb⟩ := hv.exists_bind
    obtain ⟨b', hb'⟩ := hw.exists_bind
    rw [hb, hb']
    exact .ok trivial

theorem sameOutcome_bindAll {l m : List Value} (h : List.Forall₂ AlikeScalar l m) :
    SameOutcome (fun bs bs' => bs.length = bs'.length) (Value.bindAll l) (Value.bindAll m) := by
  induction h with
  | nil => exact .ok rfl
  | cons hv _ ih =>
    refine (sameOutcome_bind hv).bind fun b b' _ => ih.bind fun bs bs' hlen => .ok ?_
    rw [List.length_cons, List.length_cons, hlen]

theorem sameOutcome_ofList (op : Operator) {l m : List Value} (max : Nat)
    (h : List.Forall₂ AlikeScalar l m) :
    SameOutcome (fun f g => f.bindings.length = g.bindings.length) (Fragment.ofList op l max)
      (Fragment.ofList op m max) := by
  have hlen := h.length_eq
  have hempty : l.isEmpty = m.isEmpty := by
    cases h <;> rfl
  unfold Fragment.ofList
  rw [hlen, hempty]
  split
  · exact .error _
  split
  · exact .error _
  · refine (sameOutcome_bindAll h).bind fun bs bs' hbs => .ok ?_
    simp [Fragment.join, Fragment.wrap, Fragment.ofBinding, List.flatMap_map, hbs]

/-! ## Operands that are alike -/

theorem AlikeScalar.isUndefined_eq {v w : Value} (h : AlikeScalar v w) :
    v.isUndefined = w.isUndefined := by
  rcases h with rfl | ⟨hv, hw⟩
  · rfl
  · cases hv <;> cases hw <;> rfl

theorem AlikeScalar.isNullish_eq {v w : Value} (h : AlikeScalar v w) :
    v.isNullish = w.isNullish := by
  rcases h with rfl | ⟨hv, hw⟩
  · rfl
  · rw [hv.isNullish, hw.isNullish]

namespace AlikeOperand

variable {op : Operator} {v w : Value}

theorem isUndefined_eq (h : AlikeOperand op v w) : v.isUndefined = w.isUndefined := by
  cases h with
  | same => rfl
  | scalar _ hv hw => exact AlikeScalar.isUndefined_eq (.inr ⟨hv, hw⟩)
  | list => rfl
  | pattern => rfl

theorem alikeScalar (h : AlikeOperand op v w)
    (hop : op ∈ [.greater, .atLeast, .less, .atMost, .notEqual]) : AlikeScalar v w := by
  cases h with
  | same => exact .inl rfl
  | scalar _ hv hw => exact .inr ⟨hv, hw⟩
  | list hop' => cases op <;> simp at hop hop'
  | pattern hop' => cases op <;> simp at hop hop'

theorem alikeList (h : AlikeOperand op v w) (hop : op ∈ [.oneOf, .noneOf]) :
    (∃ l m, v = .array l ∧ w = .array m ∧ List.Forall₂ AlikeScalar l m) ∨
      v = w ∧ ∀ l, v ≠ .array l := by
  cases h with
  | same =>
    cases v with
    | array l => exact .inl ⟨l, l, rfl, rfl, List.forall₂_same.2 fun _ _ => .inl rfl⟩
    | _ => exact .inr ⟨rfl, nofun⟩
  | scalar hop' => cases op <;> simp at hop hop'
  | list _ hlm => exact .inl ⟨_, _, rfl, rfl, hlm⟩
  | pattern hop' => cases op <;> simp at hop hop'

theorem alikePattern (h : AlikeOperand op v w) (hop : op ∈ [.like, .likeNoCase, .regex]) :
    (∃ s t, v = .text s ∧ w = .text t) ∨ v = w ∧ ∀ s, v ≠ .text s := by
  cases h with
  | same =>
    cases v with
    | text s => exact .inl ⟨s, s, rfl, rfl⟩
    | _ => exact .inr ⟨rfl, nofun⟩
  | scalar hop' => cases op <;> simp at hop hop'
  | list hop' => cases op <;> simp at hop hop'
  | pattern => exact .inl ⟨_, _, rfl, rfl⟩

/-- Whether a field is present is asked for with an operand that shows in the text. -/
theorem eq_of_present (h : AlikeOperand .present v w) : v = w := by
  cases h with
  | same => rfl
  | scalar hop => simp at hop
  | list hop => simp at hop
  | pattern hop => simp at hop

end AlikeOperand

end BoundSql
