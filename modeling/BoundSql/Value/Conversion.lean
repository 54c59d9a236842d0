import BoundSql.Value.Basic

/-!
# Values of native types

`ToValue` gives the value of a filter document that stands for a number, a text, a date, and for
optional values and lists of these. An absent optional value is undefined.
-/

namespace BoundSql

/-- Types whose elements stand for values of a filter document. -/
class ToValue (α : Type) where
  /-- The value that an element stands for. -/
  toValue : α → Value

export ToValue (toValue)

instance : ToValue Bool := ⟨.bool⟩

instance : ToValue Int32 := ⟨fun n => .int n.toInt64⟩

instance : ToValue Int64 := ⟨.int⟩

instance : ToValue UInt32 := ⟨fun n => .int n.toUInt64.toInt64⟩

/-- An unsigned number within the signed range becomes a plain integer. -/
instance : ToValue UInt64 where
  toValue n := if n.toNat < Nat.pow 2 63 then .int n.toInt64 else .bigInt n

instance : ToValue Double := ⟨.float⟩

instance : ToValue String := ⟨.text⟩

instance : ToValue DateTime := ⟨.date⟩

/-- What is absent is undefined. -/
instance {α : Type} [ToValue α] : ToValue (Option α) where
  toValue
    | some a => toValue a
    | none => .undefined

instance {α : Type} [ToValue α] : ToValue (List α) where
  toValue l := .array (l.map toValue)

end BoundSql
