import BoundSql.Filter.Compile

/-!
# Fragment expressions

A `Fragment.Expr` says how a fragment is put together from literals, bindings, identifiers, lists
and filters. `Fragment.Expr.eval` puts it together, part after part; the first part that is
refused is the answer.
-/

namespace BoundSql

namespace Fragment

/-- A way to put a fragment together. -/
inductive Expr
  | raw (text : String)
  | value (v : Value)
  | binding (b : Binding)
  | name (name : String)
  | list (op : Operator) (items : List Value) (max : Nat)
  /-- The fragment of a filter, under the limits that hold by default. -/
  | filter (v : Value)
  | wrap (e : Expr)
  | join (separator : String) (parts : List Expr)
  deriving Repr

namespace Expr

mutual

/-- The fragment of an expression. -/
def eval : Expr → Except Error Fragment
  | raw text => .ok (Fragment.raw text)
  | value v => Fragment.ofValue v
  | binding b => .ok (Fragment.ofBinding b)
  | name n => Fragment.ofName n
  | list op items max => Fragment.ofList op items max
  | filter v => compile {} v
  | wrap e => (eval e).map Fragment.wrap
  | join separator parts => (evalAll parts).map (Fragment.join separator)

/-- The fragments of some expressions, in order. -/
def evalAll : List Expr → Except Error (List Fragment)
  | [] => .ok []
  | e :: es => do
    let f ← eval e
    let fs ← evalAll es
    pure (f :: fs)

end

end Expr

end Fragment

end BoundSql
