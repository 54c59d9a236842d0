import BoundSql.Fragment.Basic

/-!
# Places inside JSON columns

A field with dots in it names a place inside a JSON column: `meta.address.city` is the place
`$.address.city` of the column `meta`. The path is bound as a parameter, so the text that reads the
place is the same for all paths.
-/

namespace BoundSql

/-- A column and a path into the JSON text that it holds. -/
structure JsonPath where
  column : String
  path : String
  deriving DecidableEq, Repr

namespace JsonPath

/-- Whether a field names a place inside a column: whether it has a dot. -/
def isDotted (field : String) : Bool :=
  field.toList.any (· = '.')

/-- What is wrong with the first of the segments that cannot stand in a path. -/
def segmentFault? : List (List Char) → Option PathFault
  | [] => none
  | part :: parts =>
    if part.isEmpty then some .emptySegment
    else if isIdentifier (String.ofList part) then segmentFault? parts
    else some .badSegment

/-- The path of a list of segments: a dollar sign, then a dot before each. -/
def pathOf (parts : List (List Char)) : String :=
  String.ofList ('$' :: parts.flatMap fun part => '.' :: part)

/-- The place that a field names. The column must not be empty, but is not otherwise looked at. -/
def ofField (field : String) : Except Error JsonPath :=
  match field.toList.splitOn '.' with
  | [] => .error (.badPath field .missingColumn)
  | column :: parts =>
    if column.isEmpty then .error (.badPath field .missingColumn)
    else
      match segmentFault? parts with
      | some fault => .error (.badPath field fault)
      | none =>
        if parts.isEmpty then .error (.badPath field .missingPath)
        else .ok { column := String.ofList column, path := pathOf parts }

/-- The text that reads a place of a column, with a placeholder for the path. -/
def extractText (column : Identifier) (qualifier : Option String) : String :=
  "json_extract(" ++ column.qualified qualifier ++ ", ?)"

/-- The fragment that reads the place, its path bound. -/
def extract (p : JsonPath) (qualifier : Option String) : Except Error Fragment := do
  let column ← Identifier.ofName p.column
  pure { text := extractText column qualifier, bindings := [.text p.path] }

end JsonPath

end BoundSql
