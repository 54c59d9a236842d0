/-!
# Arguments of the command line

`Invocation.ofArguments` reads the arguments of the program: options that hold for every command,
the name of a command, and what belongs to the command. Options can stand before and behind the
name of the command; where both levels set the same one, the inner level wins, and what is set in
the arguments wins over the environment.

* Options are written `--name value` or `--name=value`, and some have a letter: `-f value`,
  `-fvalue` or `-f=value`. Letters without values can be put together.
* Behind `--` there are no more options.
* An option must not be set twice on a level.
-/

namespace BoundSql.Cli

/-- How a compiled filter is written. -/
inductive Format
  | text
  | json
  deriving DecidableEq, Repr

/-- Where a filter comes from. -/
inductive FilterSource
  | argument (text : String)
  | file (path : String)
  | standardInput
  deriving DecidableEq, Repr

/-- What the program is asked to do. -/
inductive Command
  /-- Compile a filter, and write its text and bindings. -/
  | compile (source : FilterSource) (format : Format)
  /-- Screen SQL text. -/
  | check (sql : String)
  /-- Write the table of operators. -/
  | operators
  deriving DecidableEq, Repr

/-- A command with the options that hold for every command. -/
structure Invocation where
  /-- The path of a limits document, if one is named. -/
  config : Option String
  verbose : Bool
  command : Command
  deriving DecidableEq, Repr

/-- Why no command is run. -/
inductive Stop
  | version
  | help
  /-- The arguments are wrong. -/
  | usage
  deriving DecidableEq, Repr

/-- Where arguments stand: before the name of a command, or behind it. -/
inductive Level
  | program
  | compile
  | check
  | operators
  deriving DecidableEq, Repr

/-- What an option sets. -/
inductive Setting
  | config
  | verbose
  | file
  | format
  | version
  | help
  deriving DecidableEq, Repr

namespace Setting

/-- Whether the option has a value. -/
def hasValue : Setting → Bool
  | config | file | format => true
  | _ => false

/-- The option of a name, at a level. -/
def ofName? (level : Level) (name : String) : Option Setting :=
  match level, name with
  | _, "config" => some config
  | _, "verbose" => some verbose
  | _, "help" => some help
  | .program, "version" => some version
  | .compile, "file" => some file
  | .compile, "format" => some format
  | _, _ => none

/-- The option of a letter, at a level. -/
def ofLetter? (level : Level) (letter : Char) : Option Setting :=
  match level, letter with
  | _, 'v' => some verbose
  | _, 'h' => some help
  | .program, 'V' => some version
  | .compile, 'f' => some file
  | _, _ => none

end Setting

/-- A part of an argument that means something by itself. -/
inductive Word
  /-- An option without a value. -/
  | flag (s : Setting)
  /-- An option and its value. -/
  | valued (s : Setting) (value : String)
  /-- An option whose value is the next argument. -/
  | wanting (s : Setting)
  /-- Anything that is not an option. -/
  | plain (text : String)
  /-- The end of the options. -/
  | separator
  | unknown
  deriving DecidableEq, Repr

namespace Word

/-- The words of the letters behind a single dash. A letter with a value takes what follows it as
its value. -/
def ofLetters (level : Level) : List Char → List Word
  | [] => []
  | c :: s =>
    match Setting.ofLetter? level c with
    | none => [unknown]
    | some setting =>
      if setting.hasValue then
        match s with
        | [] => [wanting setting]
        | '=' :: value => [valued setting (String.ofList value)]
        | value => [valued setting (String.ofList value)]
      else flag setting :: ofLetters level s

/-- The word of what follows two dashes. -/
def ofLong (level : Level) (s : List Char) : Word :=
  match Setting.ofName? level (String.ofList (s.takeWhile (· ≠ '='))) with
  | none => unknown
  | some setting =>
    match s.dropWhile (· ≠ '='), setting.hasValue with
    | [], true => wanting setting
    | [], false => flag setting
    | _ :: value, true => valued setting (String.ofList value)
    | _ :: _, false => unknown

/-- The words of an argument, at a level where options have not ended. -/
def ofArgument (level : Level) (argument : String) : List Word :=
  match argument.toList with
  | ['-', '-'] => [separator]
  | '-' :: '-' :: s => [ofLong level s]
  | ['-'] => [plain argument]
  | '-' :: s => ofLetters level s
  | _ => [plain argument]

end Word

/-- What was set at a level, and what was given to it besides options. -/
structure Given where
  config : Option String := none
  verbose : Bool := false
  file : Option String := none
  format : Option Format := none
  plain : Option String := none
  deriving DecidableEq, Repr

namespace Given

/-- Set an option without a value. -/
def setFlag (g : Given) : Setting → Except Stop Given
  | .verbose => if g.verbose then .error .usage else .ok { g with verbose := true }
  | .version => .error .version
  | .help => .error .help
  | _ => .error .usage

/-- Set an option to a value. Paths must not be empty. -/
def setValue (g : Given) (s : Setting) (value : String) : Except Stop Given :=
  match s with
  | .config =>
    if g.config.isSome || value.isEmpty then .error .usage else .ok { g with config := some value }
  | .file =>
    if g.file.isSome || value.isEmpty then .error .usage else .ok { g with file := some value }
  | .format =>
    if g.format.isSome then .error .usage
    else
      match value with
      | "text" => .ok { g with format := some .text }
      | "json" => .ok { g with format := some .json }
      | _ => .error .usage
  | _ => .error .usage

/-- Take what is not an option. The commands take one such argument or none. -/
def setPlain (g : Given) (level : Level) (text : String) : Except Stop Given :=
  if level = .operators || g.plain.isSome then .error .usage else .ok { g with plain := some text }

end Given

/-- What the words of an argument lead to. -/
inductive Progress
  /-- All are taken. -/
  | going (g : Given)
  /-- The last one waits for its value. -/
  | waiting (g : Given) (s : Setting)
  /-- The options have ended. -/
  | closed (g : Given)
  /-- At the level of the program: the name of a command. -/
  | named (g : Given) (name : String)

/-- Take the words of one argument. -/
def takeWords (level : Level) (g : Given) : List Word → Except Stop Progress
  | [] => .ok (.going g)
  | .flag s :: ws => do takeWords level (← g.setFlag s) ws
  | .valued s value :: ws => do takeWords level (← g.setValue s value) ws
  | .wanting s :: _ => .ok (.waiting g s)
  | .plain text :: ws =>
    if level = .program then .ok (.named g text)
    else do takeWords level (← g.setPlain level text) ws
  | .separator :: _ => .ok (.closed g)
  | .unknown :: _ => .error .usage

/-- Take the arguments behind the end of the options. -/
def takePlain (level : Level) (g : Given) : List String → Except Stop Given
  | [] => .ok g
  | a :: l => do takePlain level (← g.setPlain level a) l

/-- Whether an argument can be the value of the option before it. -/
def isValue (argument : String) : Bool :=
  match argument.toList with
  | '-' :: _ :: _ => false
  | _ => true

/-- Take the arguments of a level, up to the name of a command at the level of the program. Gives
what was set, and the name with the arguments behind it. -/
def takeLevel (level : Level) (g : Given) :
    List String → Except Stop (Given × Option (String × List String))
  | [] => .ok (g, none)
  | [a] => do
    match ← takeWords level g (Word.ofArgument level a) with
    | .going g | .closed g => .ok (g, none)
    | .waiting _ _ => .error .usage
    | .named g name => .ok (g, some (name, []))
  | a :: b :: l => do
    match ← takeWords level g (Word.ofArgument level a) with
    | .going g => takeLevel level g (b :: l)
    | .waiting g s =>
      if isValue b then
        let g ← g.setValue s b
        takeLevel level g l
      else .error .usage
    | .closed g =>
      if level = .program then .error .usage
      else
        let g ← takePlain level g (b :: l)
        .ok (g, none)
    | .named g name => .ok (g, some (name, b :: l))

/-- The level of a command's name. -/
def Level.ofName? : String → Option Level
  | "compile" => some .compile
  | "check" => some .check
  | "operators" => some .operators
  | _ => none

/-- The command of a level and of what was given to it. -/
def Given.command (g : Given) : Level → Except Stop Command
  | .program => .error .usage
  | .compile =>
    let format := g.format.getD .text
    match g.plain, g.file with
    | some _, some _ => .error .usage
    | some text, none => .ok (.compile (.argument text) format)
    | none, some path => .ok (.compile (.file path) format)
    | none, none => .ok (.compile .standardInput format)
  | .check =>
    match g.plain with
    | some sql => .ok (.check sql)
    | none => .error .usage
  | .operators => .ok .operators

/-- What asking for help leads to. The name of one command may follow, `help` counting as one. -/
def Stop.ofTopics : List String → Stop
  | [] => .help
  | [name] => if name = "help" ∨ (Level.ofName? name).isSome then .help else .usage
  | _ => .usage

/-- What the arguments ask for. `environment` is the path of a limits document that the environment
names. Each level that sets no path of its own looks at it, and then it must not be empty. -/
def Invocation.ofArguments (environment : Option String) (arguments : List String) :
    Except Stop Invocation := do
  let (outer, rest) ← takeLevel .program {} arguments
  match rest with
  | none => .error .usage
  | some ("help", topics) => .error (.ofTopics topics)
  | some (name, arguments) =>
    match Level.ofName? name with
    | none => .error .usage
    | some level =>
      let (inner, _) ← takeLevel level {} arguments
      let command ← inner.command level
      if environment = some "" ∧ ¬(outer.config.isSome ∧ inner.config.isSome) then .error .usage
      else
        .ok {
          config := (inner.config.or outer.config).or environment
          verbose := inner.verbose || outer.verbose
          command }

end BoundSql.Cli
