import BoundSql.Identifier
import BoundSql.Value.Binding

/-!
# Fragments of SQL

A `Fragment` is SQL text with the bindings of its placeholders, in order. Values enter a fragment
as bindings only; its text comes from literals of the program, from identifiers that were checked,
and from `raw`.
-/

namespace BoundSql

/-- SQL text and the bindings of its placeholders. -/
@[ext]
structure Fragment where
  text : String := ""
  bindings : List Binding := []
  deriving DecidableEq, Repr

namespace Fragment

/-- Trusted SQL text without placeholders. -/
def raw (text : String) : Fragment where
  text := text

/-- One placeholder and its binding. -/
def ofBinding (b : Binding) : Fragment where
  text := "?"
  bindings := [b]

/-- One placeholder, bound to a scalar. -/
def ofValue (v : Value) : Except Error Fragment :=
  v.bind.map ofBinding

/-- An identifier between quotes. -/
def ofName (name : String) : Except Error Fragment :=
  (Identifier.ofName name).map fun i => raw i.quoted

/-- Fragments are put one after the other, text to text and bindings to bindings. -/
instance : Append Fragment where
  append f g := { text := f.text ++ g.text, bindings := f.bindings ++ g.bindings }

@[simp] theorem text_append (f g : Fragment) : (f ++ g).text = f.text ++ g.text := rfl

@[simp] theorem bindings_append (f g : Fragment) :
    (f ++ g).bindings = f.bindings ++ g.bindings := rfl

/-- Fragments one after the other with a literal text between each two. -/
def join (separator : String) (parts : List Fragment) : Fragment where
  text := separator.intercalate (parts.map text)
  bindings := parts.flatMap bindings

/-- A fragment between parentheses. -/
def wrap (f : Fragment) : Fragment where
  text := "(" ++ f.text ++ ")"
  bindings := f.bindings

/-- The list `(?,?,…)` with a placeholder for each item. The operator is named by refusals. -/
def ofList (op : Operator) (items : List Value) (max : Nat) : Except Error Fragment :=
  if items.isEmpty then .error (.emptyList op)
  else if max < items.length then .error (.listTooLong op items.length max)
  else do
    let bs ← Value.bindAll items
    pure (join "," (bs.map ofBinding)).wrap

end Fragment

end BoundSql
