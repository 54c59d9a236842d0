import BoundSql.Fragment.Basic
import BoundSql.Lexeme.Screen
import BoundSql.Limits.Basic

/-!
# Queries

A `Query` is a query under construction. Pieces are appended with `push`; a piece that is refused
adds nothing, and the first refusal is kept until `build` reports it, so that pushes can follow
one another without looking back. `build` also screens the finished text.
-/

namespace BoundSql

/-- A query under construction. -/
structure Query where
  limits : Limits
  fragment : Fragment := {}
  /-- The refusal of the first piece that was refused. -/
  refusal : Option Error := none
  deriving Repr

namespace Query

/-- A piece that can be appended to a query. -/
inductive Piece
  /-- Trusted SQL text. -/
  | sql (text : String)
  /-- A placeholder, bound to a scalar. -/
  | value (v : Value)
  /-- A placeholder, bound to raw bytes. -/
  | blob (content : List UInt8)
  /-- An identifier between quotes. -/
  | name (name : String)
  /-- A list of placeholders, one for each item. -/
  | items (l : List Value)
  /-- A fragment that was put together before. -/
  | fragment (f : Fragment)
  deriving Repr

/-- The fragment of a piece, or the refusal of the piece. -/
def Piece.toFragment (limits : Limits) : Piece → Except Error Fragment
  | sql text => .ok (Fragment.raw text)
  | value v => Fragment.ofValue v
  | blob content => .ok (Fragment.ofBinding (.blob content))
  | name n => Fragment.ofName n
  | items l => Fragment.ofList .oneOf l limits.listItems
  | fragment f => .ok f

/-- Append a piece. -/
def push (q : Query) (p : Piece) : Query :=
  match p.toFragment q.limits with
  | .ok f => { q with fragment := q.fragment ++ f }
  | .error e => { q with refusal := q.refusal.or (some e) }

/-- The query of some pieces. -/
def ofPieces (limits : Limits) (ps : List Piece) : Query :=
  ps.foldl push { limits }

/-- The finished fragment, if no piece was refused and its text passes the screen. -/
def build (q : Query) : Except Error Fragment :=
  match q.refusal with
  | some e => .error e
  | none => do
    screen q.fragment.text q.limits.queryLength
    pure q.fragment

end Query

end BoundSql
