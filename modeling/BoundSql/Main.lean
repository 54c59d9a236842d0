import BoundSql.Cli.Run

/-!
# The program

The outermost layer: it reads the environment, the files and the input that an invocation names,
and writes the report that `Invocation.run` makes of them.
-/

namespace BoundSql.Cli

/-- The fault with a number of the system, which can be given below zero. -/
def faultOfNumber? (code : UInt32) : Option FileFault :=
  match code.toInt32.toInt.natAbs with
  | 2 => some .notFound
  | 20 => some .notDirectory
  | 21 => some .isDirectory
  | 36 => some .nameTooLong
  | _ => none

/-- Why the system could not read a file. -/
def fileFault (e : IO.Error) : FileFault :=
  let known := match e with
    | .noFileOrDirectory _ code _ => faultOfNumber? code
    | .inappropriateType _ code _ => faultOfNumber? code
    | .invalidArgument _ code _ => faultOfNumber? code
    | _ => none
  known.getD (.other e.toString)

/-- The text of a file. -/
def readText (path : String) : IO (Except FileFault String) := do
  try
    let content ← IO.FS.readBinFile path
    match String.fromUTF8? content with
    | some text => return .ok text
    | none => return .error .notText
  catch e => return .error (fileFault e)

/-- All of the standard input. -/
def readInput : IO (Except FileFault String) := do
  let input ← IO.getStdin
  let content ← input.readBinToEnd
  match String.fromUTF8? content with
  | some text => return .ok text
  | none => return .error .notText

/-- The limits document that is used when none is named: the one in the directory for
configuration, if there is a file there. -/
def findLimits : IO (Option (Except FileFault String)) := do
  let directory ← do
    match ← IO.getEnv "XDG_CONFIG_HOME", ← IO.getEnv "HOME" with
    | some directory, _ => pure (some directory)
    | none, some home => pure (some (home ++ "/.config"))
    | none, none => pure none
  match directory with
  | none => return none
  | some directory =>
    match ← readText (limitsPath directory) with
    | .error .notFound | .error .isDirectory | .error .notDirectory | .error .nameTooLong =>
      return none
    | text => return some text

/-- The texts that an invocation needs. -/
def gather (i : Invocation) : IO Sources := do
  let limits ← match i.config with
    | some path => some <$> readText path
    | none => findLimits
  let filter ← match i.command with
    | .compile (.file path) _ => readText path
    | .compile .standardInput _ => readInput
    | _ => pure (.ok "")
  return { limits, filter }

/-- Whether output is coloured: as the environment says, and else on a terminal. -/
def wantsColour : IO Bool := do
  if (← IO.getEnv "CLICOLOR_FORCE").any (· ≠ "0") then return true
  if (← IO.getEnv "NO_COLOR").isSome then return false
  if (← IO.getEnv "CLICOLOR") = some "0" then return false
  (← IO.getStdout).isTty

end BoundSql.Cli

open BoundSql.Cli in
/-- Run the program with its arguments. -/
def main (arguments : List String) : IO UInt32 := do
  let coloured ← wantsColour
  let answer ← match Invocation.ofArguments (← IO.getEnv "SAFESQL_CONFIG") arguments with
    | .error stop => pure stop.report
    | .ok i => do pure (i.run coloured (← gather i))
  IO.print answer.output
  IO.eprint answer.errors
  return answer.exitCode.toUInt32
