import BoundSql.Cli.Arguments
import BoundSql.Cli.Style
import BoundSql.Filter.Compile
import BoundSql.Json.Reader
import BoundSql.Json.Writer
import BoundSql.Lexeme.Screen
import BoundSql.Limits.Document
import BoundSql.Value.BindingText

/-!
# Commands

What the commands of the program answer. `Invocation.run` gets the texts that the surroundings hold
(a limits document, a filter) and gives a `Report`: what goes to the two outputs, and how the
program exits. It reads nothing and writes nothing itself.
-/

namespace BoundSql.Cli

/-- The outcome of the program. -/
structure Report where
  exitCode : Nat := 0
  output : String := ""
  errors : String := ""
  deriving DecidableEq, Repr

/-- The limits document that is used when none is named, if there is one in the directory for
configuration. -/
def limitsPath (configuration : String) : String :=
  configuration ++ "/safesql/config.toml"

/-- The texts that an invocation needs from its surroundings. -/
structure Sources where
  /-- The limits document, if one is named or found, or why it cannot be read. -/
  limits : Option (Except FileFault String)
  /-- The file or the input that the filter comes from. -/
  filter : Except FileFault String

/-- The wording of a failure with its causes. A file that cannot be read has a cause of its own. -/
def wording (e : Error) : String :=
  match e with
  | .unreadable fault => e.message ++ ": " ++ fault.reason
  | e => e.message

/-- The limits that hold: those of the document, if there is one. A document that was named is
mentioned when it fails. -/
def limitsOf (config : Option String) (document : Option (Except FileFault String)) :
    Except String Limits :=
  let read : Except Error Limits :=
    match document with
    | none => .ok {}
    | some (.error fault) => .error (.unreadable fault)
    | some (.ok text) => Limits.ofDocument text
  match read, config with
  | .ok limits, _ => .ok limits
  | .error e, some path => .error ("failed to load " ++ path ++ ": " ++ wording e)
  | .error e, none => .error (wording e)

/-- The text of a filter. -/
def filterText (source : FilterSource) (read : Except FileFault String) : Except String String :=
  match source, read with
  | .argument text, _ => .ok text
  | _, .ok text => .ok text
  | .file path, .error fault => .error ("failed to read " ++ path ++ ": " ++ fault.reason)
  | .standardInput, .error fault => .error ("failed to read filter from stdin: " ++ fault.reason)

/-- The lines that show a compiled filter: its text, and its bindings with their numbers. -/
def fragmentText (coloured : Bool) (f : Fragment) : String :=
  let head := (Style.boldOf .green).paint coloured "Generated SQL:" ++ "\n" ++
    (Style.ofColour .white).paint coloured f.text ++ "\n"
  if f.bindings.isEmpty then head
  else
    head ++ "\n" ++ (Style.ofColour .cyan).paint coloured "Bindings:" ++ "\n" ++
      String.join (f.bindings.zipIdx.map fun (b, i) =>
        "  ?" ++ Text.natural (i + 1) ++ " = " ++
          (Style.ofColour .yellow).paint coloured b.displayText ++ "\n")

/-- What compiling the text of a filter puts out. -/
def compileText (coloured : Bool) (limits : Limits) (format : Format) (text : String) :
    Except String String :=
  match Json.read text with
  | .error fault => .error ("filter is not valid JSON: " ++ fault.message)
  | .ok v =>
    match BoundSql.compile limits v, format with
    | .error e, _ => .error (wording e)
    | .ok f, .json => .ok (f.json ++ "\n")
    | .ok f, .text => .ok (fragmentText coloured f)

/-- What screening SQL text puts out. -/
def checkText (coloured : Bool) (limits : Limits) (sql : String) : Except String String :=
  let counted : Except Error Nat := do
    screen sql limits.queryLength
    countPlaceholders sql
  match counted with
  | .error e => .error (wording e)
  | .ok n =>
    .ok ((Style.ofColour .green).paint coloured "✓" ++ " single statement, " ++
      (Style.ofColour .cyan).paint coloured (Text.natural n) ++ " placeholder(s)\n")

/-- A row of the table of operators, each cell in its style. -/
def tableRow (coloured : Bool) (key sql operand : Style × String) : String :=
  key.1.paint coloured (padRight 8 key.2) ++ " " ++ sql.1.paint coloured (padRight 25 sql.2) ++
    " " ++ operand.1.paint coloured operand.2 ++ "\n"

/-- The table of operators. -/
def operatorTable (coloured : Bool) : String :=
  let heading := Style.boldOf .white
  (Style.boldOf .cyan).paint coloured "safesql Operator Reference" ++ "\n\n" ++
    tableRow coloured (heading, "Key") (heading, "SQL") (heading, "Operand") ++
    Style.dim.paint coloured (String.ofList (List.replicate 60 '─')) ++ "\n" ++
    String.join (Operator.all.map fun op =>
      tableRow coloured (.boldOf .cyan, op.name) (.ofColour .yellow, op.sql)
        (.dim, op.operand)) ++ "\n" ++
    Style.dim.paint coloured
      "Combinators: and, or. Aliases: \"$t\": \x7b ... \x7d. JSON paths: \"col.key\"." ++ "\n"

/-- What is told about the input before it is compiled. -/
def inputNote (coloured : Bool) (text : String) : String :=
  Style.dim.paint coloured "Input:" ++ " " ++
    (Style.ofColour .yellow).paint coloured (Text.trim text) ++ "\n"

/-- The report of a failure, behind notes that were made before. -/
def failure (coloured : Bool) (notes reason : String) : Report where
  exitCode := 1
  errors := notes ++ (Style.boldOf .red).paint coloured "Error:" ++ " " ++ reason ++ "\n"

/-- The report of a command that put something out or failed. -/
def report (coloured : Bool) (notes : String) : Except String String → Report
  | .ok output => { output, errors := notes }
  | .error reason => failure coloured notes reason

/-- Run an invocation. -/
def Invocation.run (i : Invocation) (coloured : Bool) (sources : Sources) : Report :=
  match limitsOf i.config sources.limits with
  | .error reason => failure coloured "" reason
  | .ok limits =>
    match i.command with
    | .operators => { output := operatorTable coloured }
    | .check sql => report coloured "" (checkText coloured limits sql)
    | .compile source format =>
      match filterText source sources.filter with
      | .error reason => failure coloured "" reason
      | .ok text =>
        report coloured (if i.verbose then inputNote coloured text else "")
          (compileText coloured limits format text)

/-- How the program is called. -/
def usageText : String :=
  "Usage: safesql [--config PATH] [--verbose] COMMAND\n\n" ++
    "Commands:\n" ++
    "  compile [FILTER] [--file PATH] [--format text|json]\n" ++
    "  check SQL\n" ++
    "  operators\n"

/-- The report of an invocation that runs no command. -/
def Stop.report : Stop → Report
  | version => { output := "safesql 0.3.0\n" }
  | help => { output := usageText }
  | usage => { exitCode := 2, errors := usageText }

end BoundSql.Cli
