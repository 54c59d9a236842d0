import BoundSql.Error

/-!
# Bindings

A `Binding` is what a placeholder of SQL text stands for. `Value.bind` makes one of a scalar:
dates become text, and what was not given becomes null. Values that a column cannot hold are
refused, and so are raw bytes: a blob is bound only on purpose.
-/

namespace BoundSql

/-- A parameter of a statement, bound to a placeholder by its position. -/
inductive Binding
  | null
  | bool (b : Bool)
  | integer (n : Int64)
  | real (x : Double)
  | text (s : String)
  | blob (content : List UInt8)
  deriving DecidableEq, Repr

namespace Value

/-- The binding of a scalar. -/
def bind (v : Value) : Except Error Binding :=
  match v with
  | undefined | null => .ok .null
  | bool b => .ok (.bool b)
  | int n => .ok (.integer n)
  | bigInt n => .error (.integerOutOfRange n)
  | float x =>
    match x.nonFinite? with
    | none => .ok (.real x)
    | some f => .error (.nonFinite f)
  | text s => .ok (.text s)
  | date t => .ok (.text t.text)
  | bytes _ => .error .bytesOperand
  | array _ | object _ => .error (.notScalar v.shape)

/-- The bindings of a list of scalars, or the refusal of the first that has none. -/
def bindAll : List Value → Except Error (List Binding)
  | [] => .ok []
  | v :: l => do
    let b ← v.bind
    let bs ← bindAll l
    pure (b :: bs)

end Value

end BoundSql
