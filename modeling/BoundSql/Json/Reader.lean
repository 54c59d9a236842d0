import BoundSql.Json.Token

/-!
# Reading JSON text

`Json.read` gives the value that a JSON text stands for. The tokens of the text are taken one after
the other; a stack holds the arrays and objects that are open, with what they have collected, and a
`Want` says what may come next.

An object keeps its keys in the order of their first occurrence. A key that occurs again keeps its
place and takes the later value.
-/

namespace BoundSql.Json

/-- An array or an object that is open, and what it has collected. -/
inductive Frame
  /-- The items of an array before the one that is being read, the last one first. -/
  | array (before : List Value)
  /-- The entries of an object before the one that is being read, and the key of that one. -/
  | object (before : List (String × Value)) (key : String)
  deriving Repr

/-- What may come next. -/
inductive Want
  | value
  /-- The first item of an array, or its end. -/
  | firstItem
  /-- The first key of an object, or its end. -/
  | firstKey
  /-- A further key of an object, behind these entries. -/
  | key (before : List (String × Value))
  | colon (before : List (String × Value)) (key : String)
  /-- What follows a value: more of what is open, or its end. -/
  | after (v : Value)
  deriving Repr

/-- How many arrays and objects may stand inside one another. -/
def maxDepth : Nat := 127

/-- The entries with a key set to a value: in its place if the key is there, at the end if not. -/
def setEntry (key : String) (v : Value) : List (String × Value) → List (String × Value)
  | [] => [(key, v)]
  | (k, w) :: l => if k = key then (key, v) :: l else (k, w) :: setEntry key v l

/-- The state of reading: what may come next, and what is open, the innermost first. -/
structure State where
  want : Want
  frames : List Frame
  deriving Repr

namespace State

/-- The state before the first token. -/
def start : State where
  want := .value
  frames := []

/-- Begin a value with a token. -/
def beginValue (frames : List Frame) : Token → Except Fault State
  | .scalar v => .ok { want := .after v, frames }
  | .text s => .ok { want := .after (.text s), frames }
  | .openArray =>
    if maxDepth ≤ frames.length then .error .tooDeep
    else .ok { want := .firstItem, frames := .array [] :: frames }
  | .openObject =>
    if maxDepth ≤ frames.length then .error .tooDeep
    else .ok { want := .firstKey, frames }
  | _ => .error .misplaced

/-- Go on after a value with a token. -/
def afterValue (v : Value) : List Frame → Token → Except Fault State
  | .array before :: frames, .comma =>
    .ok { want := .value, frames := .array (v :: before) :: frames }
  | .array before :: frames, .closeArray =>
    .ok { want := .after (.array (v :: before).reverse), frames }
  | .object before key :: frames, .comma => .ok { want := .key (setEntry key v before), frames }
  | .object before key :: frames, .closeObject =>
    .ok { want := .after (.object (setEntry key v before)), frames }
  | _, _ => .error .misplaced

/-- Take a token. -/
def step (s : State) (t : Token) : Except Fault State :=
  match s.want, t with
  | .value, t => beginValue s.frames t
  | .firstItem, .closeArray => .ok { want := .after (.array []), frames := s.frames.tail }
  | .firstItem, t => beginValue s.frames t
  | .firstKey, .closeObject => .ok { want := .after (.object []), frames := s.frames }
  | .firstKey, .text key => .ok { want := .colon [] key, frames := s.frames }
  | .key before, .text key => .ok { want := .colon before key, frames := s.frames }
  | .colon before key, .colon => .ok { want := .value, frames := .object before key :: s.frames }
  | .after v, t => afterValue v s.frames t
  | _, _ => .error .misplaced

/-- The value that was read, when the text ends here. -/
def finish (s : State) : Except Fault Value :=
  match s.want, s.frames with
  | .after v, [] => .ok v
  | _, _ => .error .ended

/-- Take all tokens, and give the value that was read. -/
def run (s : State) : List Token → Except Fault Value
  | [] => s.finish
  | t :: ts =>
    match s.step t with
    | .error e => .error e
    | .ok s' => s'.run ts

end State

/-- The value that a JSON text stands for. -/
def read (text : String) : Except Fault Value :=
  match tokens text with
  | .error e => .error e
  | .ok ts => State.start.run ts

end BoundSql.Json
