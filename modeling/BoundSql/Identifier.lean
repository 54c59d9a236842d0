import BoundSql.Error

/-!
# Identifiers

Columns, the segments of a JSON path and table aliases share one grammar: a letter of the English
alphabet or an underscore, then letters, digits and underscores. Anything else is refused; nothing
is escaped. An `Identifier` is a name of this grammar.

A column is written between double quotes and an alias bare, as in `t2."col"`.
-/

namespace BoundSql

/-- Whether an identifier can begin with the character. -/
def isNameStart (c : Char) : Bool :=
  c.isAlpha || c = '_'

/-- Whether an identifier can go on with the character. -/
def isNameChar (c : Char) : Bool :=
  c.isAlphanum || c = '_'

/-- Whether a text is an identifier. -/
def isIdentifier (s : String) : Bool :=
  match s.toList with
  | [] => false
  | c :: cs => isNameStart c && cs.all isNameChar

/-- A name that is an identifier. -/
structure Identifier where
  name : String
  isIdentifier_name : isIdentifier name = true
  deriving DecidableEq, Repr

namespace Identifier

/-- The identifier of a name, or the refusal of the name. -/
def ofName (name : String) : Except Error Identifier :=
  if h : isIdentifier name = true then .ok ⟨name, h⟩ else .error (.badIdentifier name)

/-- The name between double quotes. -/
def quoted (i : Identifier) : String :=
  "\"" ++ i.name ++ "\""

/-- The column with the name, behind the table alias that qualifies it if there is one. -/
def qualified (i : Identifier) : Option String → String
  | some qualifier => qualifier ++ "." ++ i.quoted
  | none => i.quoted

@[simp] theorem ofName_name (i : Identifier) : ofName i.name = .ok i := by
  simp [ofName, i.isIdentifier_name]

end Identifier

end BoundSql
