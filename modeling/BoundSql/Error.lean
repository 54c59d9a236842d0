import BoundSql.Operator
import BoundSql.Text.Decimal
import BoundSql.Value.Basic

/-!
# Why a filter or a query is refused

`Error` has one constructor for each cause, with what is needed to describe it. `Error.kind` sorts
the causes, `Error.isClientError` tells those that the input is to blame for, and `Error.message`
is the wording.
-/

namespace BoundSql

/-- What is wrong with a dotted field. -/
inductive PathFault
  | missingColumn
  | emptySegment
  | badSegment
  | missingPath
  deriving DecidableEq, Repr

/-- The wording of a fault in a dotted field. -/
def PathFault.reason : PathFault → String
  | missingColumn => "missing column"
  | emptySegment => "empty segment"
  | badSegment => "segment is not an identifier"
  | missingPath => "missing path"

/-- A construct of SQL text that has an end of its own, and can lack it. -/
inductive Enclosure
  | stringLiteral
  | quotedIdentifier
  | blockComment
  deriving DecidableEq, Repr

/-- The name of a construct. -/
def Enclosure.name : Enclosure → String
  | stringLiteral => "string literal"
  | quotedIdentifier => "quoted identifier"
  | blockComment => "block comment"

/-- Why a file cannot be read. -/
inductive FileFault
  | notFound
  | isDirectory
  /-- What should be a directory on the way to the file is none. -/
  | notDirectory
  /-- The path, or a name in it, is too long. -/
  | nameTooLong
  /-- The file does not hold text in UTF-8. -/
  | notText
  /-- Any other cause, in the words of the system. -/
  | other (reason : String)
  deriving DecidableEq, Repr

/-- The wording of a file fault. -/
def FileFault.reason : FileFault → String
  | notFound => "No such file or directory (os error 2)"
  | isDirectory => "Is a directory (os error 21)"
  | notDirectory => "Not a directory (os error 20)"
  | nameTooLong => "File name too long (os error 36)"
  | notText => "stream did not contain valid UTF-8"
  | other reason => reason

/-- The cause of a failure. -/
inductive Error
  /-- A filter is not an object. -/
  | notAnObject (shape : Shape)
  /-- A combinator was given something other than an array. -/
  | combinatorNotArray (c : Combinator)
  /-- A combinator was given an empty array. -/
  | combinatorEmpty (c : Combinator)
  /-- A field was given an array. -/
  | arrayField (field : String)
  /-- A filter object asks for nothing. -/
  | emptyFilter
  /-- An operator object asks for nothing. -/
  | emptyOperators (field : String)
  /-- An alias block stands inside another one. -/
  | nestedAlias (outer inner : String)
  | badIdentifier (name : String)
  | badPath (field : String) (fault : PathFault)
  | unknownOperator (key : String)
  /-- The operand of an operator has the wrong form. -/
  | operandShape (op : Operator) (expected : Shape)
  /-- A list of items to compare with is empty. -/
  | emptyList (op : Operator)
  | listTooLong (op : Operator) (length max : Nat)
  | tooDeep (max : Nat)
  | tooManyOperators (max : Nat)
  /-- An integer lies beyond the range that can be bound. -/
  | integerOutOfRange (n : UInt64)
  | nonFinite (x : NonFinite)
  /-- An array or an object stands where a scalar is wanted. -/
  | notScalar (shape : Shape)
  /-- Raw bytes stand where a scalar is wanted. -/
  | bytesOperand
  /-- A second statement begins at this byte. -/
  | stackedStatement (offset : Nat)
  | unterminated (construct : Enclosure)
  | queryTooLong (length max : Nat)
  /-- A limits document is not well formed, or sets what it cannot; the line is the first one at
  fault. -/
  | badLimits (line : Nat)
  | unreadable (fault : FileFault)
  deriving DecidableEq, Repr

/-- The sorts of causes. -/
inductive ErrorKind
  /-- The filter is put together wrongly. -/
  | structural
  /-- A column, alias or path is refused. -/
  | identifier
  /-- An operator or its operand is refused. -/
  | operator
  /-- A limit on the filter is exceeded. -/
  | resourceLimit
  /-- A value cannot be bound. -/
  | coercion
  /-- The finished text is refused. -/
  | assembly
  /-- The surroundings are at fault: a limits document or a file. -/
  | config
  deriving DecidableEq, Repr

namespace Error

/-- The sort of a cause. -/
def kind : Error → ErrorKind
  | notAnObject _ | combinatorNotArray _ | combinatorEmpty _ | arrayField _ | emptyFilter
  | emptyOperators _ | nestedAlias _ _ => .structural
  | badIdentifier _ | badPath _ _ => .identifier
  | unknownOperator _ | operandShape _ _ | emptyList _ | listTooLong _ _ _ => .operator
  | tooDeep _ | tooManyOperators _ => .resourceLimit
  | integerOutOfRange _ | nonFinite _ | notScalar _ | bytesOperand => .coercion
  | stackedStatement _ | unterminated _ | queryTooLong _ _ => .assembly
  | badLimits _ | unreadable _ => .config

/-- Whether the input is to blame rather than the surroundings. -/
def isClientError (e : Error) : Bool :=
  e.kind ≠ .config

/-- The name of a form with its article. -/
def withArticle (s : Shape) : String :=
  match s with
  | .undefined | .array | .object => "an " ++ s.name
  | _ => "a " ++ s.name

/-- The wording of a cause. -/
def message : Error → String
  | notAnObject s => "Filter must be an object, got " ++ s.name
  | combinatorNotArray c => "'" ++ c.key ++ "' expects an array of filters"
  | combinatorEmpty c => "'" ++ c.key ++ "' requires at least one filter"
  | arrayField f =>
    "Field '" ++ f ++ "' cannot take an array value; use 'in'/'nin' or 'and'/'or'"
  | emptyFilter => "Filter produced no conditions"
  | emptyOperators f => "Operator object for field '" ++ f ++ "' produced no conditions"
  | nestedAlias outer inner =>
    "Alias block '$" ++ inner ++ "' cannot be nested inside alias '$" ++ outer ++ "'"
  | badIdentifier n => "Invalid identifier: '" ++ n ++ "'"
  | badPath f fault => "Invalid JSON path '" ++ f ++ "': " ++ fault.reason
  | unknownOperator k => "Unknown operator: '" ++ k ++ "'"
  | operandShape op s => "Operator '" ++ op.name ++ "' expects " ++ withArticle s
  | emptyList op => "Operator '" ++ op.name ++ "' requires a non-empty array"
  | listTooLong op length max =>
    "Operator '" ++ op.name ++ "' received " ++ Text.natural length ++ " items (max " ++
      Text.natural max ++ ")"
  | tooDeep max => "Filter nesting exceeds maximum depth of " ++ Text.natural max
  | tooManyOperators max => "Filter uses more than " ++ Text.natural max ++ " operators"
  | integerOutOfRange n =>
    "Unsupported value: integer " ++ Text.natural n.toNat ++ " out of 64-bit signed range"
  | nonFinite x => "Unsupported value: non-finite number " ++ x.name
  | notScalar s => "Unsupported value: " ++ s.name ++ " in scalar position"
  | bytesOperand => "Binary values cannot be interpolated; bind them explicitly"
  | stackedStatement offset => "Stacked query detected at offset " ++ Text.natural offset
  | unterminated c => "Unterminated " ++ c.name ++ " in SQL text"
  | queryTooLong length max =>
    "Query is " ++ Text.natural length ++ " bytes long (max " ++ Text.natural max ++ ")"
  | badLimits line => "Configuration error: no limit can be read in line " ++ Text.natural line
  | unreadable fault => "IO error: " ++ fault.reason

end Error

end BoundSql
