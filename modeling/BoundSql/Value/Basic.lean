import BoundSql.Calendar.DateTime
import BoundSql.Double.Basic

/-!
# Values of a filter document

A `Value` is a node of the document that a caller hands in: a scalar, an array, or an object whose
entries keep their order and may repeat a key. A value can also be undefined, which is not the
same as null: an undefined entry counts as not written.

* `Shape` names the form of a value for messages.
* `Value.beq` is equality of documents, in which floating point numbers compare as numbers.
-/

namespace BoundSql

/-- A node of a filter document. -/
inductive Value
  /-- No value was given. -/
  | undefined
  | null
  | bool (b : Bool)
  | int (n : Int64)
  /-- An integer beyond the signed range, which no column can hold. -/
  | bigInt (n : UInt64)
  | float (x : Double)
  | text (s : String)
  | date (t : DateTime)
  | bytes (content : List UInt8)
  | array (items : List Value)
  | object (entries : List (String × Value))
  deriving Inhabited, Repr

/-- The form of a value, as messages name it. -/
inductive Shape
  | undefined
  | null
  | boolean
  | number
  | string
  | date
  | binary
  | array
  | object
  deriving DecidableEq, Repr

/-- The name of a form. -/
def Shape.name : Shape → String
  | undefined => "undefined"
  | null => "null"
  | boolean => "boolean"
  | number => "number"
  | string => "string"
  | date => "date"
  | binary => "binary"
  | array => "array"
  | object => "object"

namespace Value

/-- The form of a value; all three kinds of number are numbers. -/
def shape : Value → Shape
  | undefined => .undefined
  | null => .null
  | bool _ => .boolean
  | int _ | bigInt _ | float _ => .number
  | text _ => .string
  | date _ => .date
  | bytes _ => .binary
  | array _ => .array
  | object _ => .object

/-- Whether no value was given. -/
def isUndefined : Value → Bool
  | undefined => true
  | _ => false

/-- Whether the value is null or was not given. -/
def isNullish : Value → Bool
  | undefined | null => true
  | _ => false

/-- The keys of an object, in order and with repetitions. -/
def keys? : Value → Option (List String)
  | object entries => some (entries.map Prod.fst)
  | _ => none

/-- The characters of a text value. -/
def text? : Value → Option String
  | text s => some s
  | _ => none

mutual

/-- Equality of values. Values of different constructors differ, an integer from the same number
as a float included; floats are equal as numbers are, so a not-a-number equals nothing. -/
def beq : Value → Value → Bool
  | undefined, undefined => true
  | null, null => true
  | bool a, bool b => a = b
  | int m, int n => m = n
  | bigInt m, bigInt n => m = n
  | float x, float y => x.equal y
  | text s, text t => s = t
  | date s, date t => s = t
  | bytes b, bytes c => b = c
  | array l, array m => beqItems l m
  | object l, object m => beqEntries l m
  | _, _ => false

/-- Equality of the items of two arrays, in order. -/
def beqItems : List Value → List Value → Bool
  | [], [] => true
  | v :: l, w :: m => beq v w && beqItems l m
  | _, _ => false

/-- Equality of the entries of two objects, in order. -/
def beqEntries : List (String × Value) → List (String × Value) → Bool
  | [], [] => true
  | (k, v) :: l, (k', w) :: m => k = k' && beq v w && beqEntries l m
  | _, _ => false

end

instance : BEq Value := ⟨beq⟩

end Value

end BoundSql
