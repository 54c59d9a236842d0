import BoundSql.Cli.Run

/-!
# Files as data

A `FileTree` is a tree of directories and text files, with a place in it at which relative paths
begin. `FileTree.read` follows a path from name to name, and tells what is in the way when the path
does not lead to a text:

* every name but the last must be that of a directory, also when the name after it is `..`;
* a path that ends in a slash leads to a directory;
* a name, and a path as a whole, can be too long.

`FileTree.sources` looks up in a tree what an invocation needs from its surroundings.
-/

namespace BoundSql.Cli

/-- Directories and text files. A place in the tree is given by the names on the way from the root,
and the places above a file or a directory are directories. -/
structure FileTree where
  /-- The places of the files, and their texts. -/
  files : List (List String × String)
  /-- The places of directories that are there even if they are empty. -/
  directories : List (List String) := []
  /-- The directory in which relative paths begin. -/
  start : List String := []
  deriving Repr

namespace FileTree

/-- The most bytes that a name may have. -/
def maxNameLength : Nat := 255

/-- The most bytes that a path may have. -/
def maxPathLength : Nat := 4095

/-- Whether a place is a directory. -/
def isDirectory (t : FileTree) (place : List String) : Bool :=
  (t.start :: t.directories).any place.isPrefixOf ||
    t.files.any fun f => place.isPrefixOf f.1 && place ≠ f.1

/-- The text of the file at a place. -/
def text? (t : FileTree) (place : List String) : Option String :=
  (t.files.find? fun f => f.1 = place).map Prod.snd

/-- The place that a name leads to. Nothing and a single dot lead back to the same directory, two
dots to the one above it; the root is above itself. -/
def step (t : FileTree) (place : List String) (name : String) : Except FileFault (List String) :=
  if !t.isDirectory place then .error .notDirectory
  else if name = "" ∨ name = "." then .ok place
  else if name = ".." then .ok place.dropLast
  else if maxNameLength < name.utf8ByteSize then .error .nameTooLong
  else if t.isDirectory (place ++ [name]) ∨ (t.text? (place ++ [name])).isSome then
    .ok (place ++ [name])
  else .error .notFound

/-- The place that some names lead to, one after the other. -/
def walk (t : FileTree) (place : List String) : List String → Except FileFault (List String)
  | [] => .ok place
  | name :: names => do
    let next ← t.step place name
    t.walk next names

/-- The text of the file that a path leads to. A path that begins with a slash begins at the
root. -/
def read (t : FileTree) (path : String) : Except FileFault String :=
  if path.isEmpty then .error .notFound
  else if maxPathLength < path.utf8ByteSize then .error .nameTooLong
  else do
    let names := (path.toList.splitOn '/').map String.ofList
    let place ← t.walk (if path.toList.head? = some '/' then [] else t.start) names
    match t.text? place with
    | some text => .ok text
    | none => .error .isDirectory

/-- The texts that an invocation needs, when `configuration` is the directory for configuration and
`input` the standard input. -/
def sources (t : FileTree) (configuration input : String) (i : Invocation) : Sources where
  limits :=
    match i.config with
    | some path => some (t.read path)
    | none => (t.read (limitsPath configuration)).toOption.map .ok
  filter :=
    match i.command with
    | .compile (.file path) _ => t.read path
    | _ => .ok input

end FileTree

end BoundSql.Cli
