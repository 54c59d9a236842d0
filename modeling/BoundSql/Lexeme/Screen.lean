import BoundSql.Lexeme.Basic

/-!
# Screening SQL text

A finished query is screened before it is handed out: it must not be too long, and it must hold
one statement only. A semicolon at the end is harmless, and so are blanks and comments after it;
anything else that follows a semicolon begins a second statement.
-/

namespace BoundSql

/-- The offset at which a second statement begins. `ended` says that a semicolon was passed. -/
def secondStatement? (ended : Bool) : List Lexeme → Option Nat
  | [] => none
  | l :: ls =>
    match l.kind with
    | .trivia => secondStatement? ended ls
    | .semicolon => secondStatement? true ls
    | _ => if ended then some l.offset else secondStatement? ended ls

/-- The byte at which a second statement begins in SQL text, if there is one. -/
def stackedStatement? (sql : String) : Except Error (Option Nat) :=
  (lexemes sql).map (secondStatement? false)

/-- The number of placeholders of a lexeme: the question marks of code. -/
def Lexeme.placeholders (l : Lexeme) : Nat :=
  match l.kind with
  | .code => l.chars.count '?'
  | _ => 0

/-- The number of placeholders of some lexemes. -/
def placeholderCount (ls : List Lexeme) : Nat :=
  ls.foldr (fun l n => l.placeholders + n) 0

/-- The number of placeholders in SQL text. -/
def countPlaceholders (sql : String) : Except Error Nat :=
  (lexemes sql).map placeholderCount

/-- Refuse text that is longer than `max` bytes or holds a second statement. -/
def screen (sql : String) (max : Nat) : Except Error Unit :=
  if max < sql.utf8ByteSize then .error (.queryTooLong sql.utf8ByteSize max)
  else
    match stackedStatement? sql with
    | .error e => .error e
    | .ok (some offset) => .error (.stackedStatement offset)
    | .ok none => .ok ()

end BoundSql
