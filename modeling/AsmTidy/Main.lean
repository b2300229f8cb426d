import AsmTidy.Cli.Run

/-!
# The command-line program

`nice65 [-h] [-o outfile | -m | -r] [-p PATTERN] [-l] [-v] infile`

The work is done by the definitions of `AsmTidy.Cli`: this module reads the arguments, the
input and the files, and writes the results. Its messages name the program `nice65`.

A run that stops early prints its reason on standard error and ends with status 1. The
reasons are those of a run on a working directory: a file that cannot be opened, or a source
that cannot be read.

A recursive run (`-r`) needs a listing of the directory, which this program does not read:
it says so and ends with status 1.
-/

namespace AsmTidy.Cli

/-- The error of a run that a system error stands for, if any. -/
def osErrorOf (path : String) : IO.Error → Option OsError
  | .noFileOrDirectory .. => some (.notFound path)
  | .inappropriateType _ 21 _ => some (.isDirectory path)
  | .inappropriateType _ 20 _ => some (.notDirectory path)
  | _ => none

/-- The message for a system error about `path`. -/
def describe (path : String) (e : IO.Error) : String :=
  match osErrorOf path e with
  | some err => err.message
  | none => toString e

/-- The message for a source that cannot be read. -/
def parseErrorMessage : ParseError → String
  | .unexpectedCharacter line column c =>
    "no lexeme can start with " ++ String.ofList (Text.quote [c]) ++ " at line " ++
      toString line ++ " col " ++ toString column
  | .unexpectedEnd => "unexpected end of input"

/-- Print a reason for stopping and end with status 1. -/
def stop (message : String) : IO UInt32 := do
  IO.eprintln ("nice65: " ++ message)
  return 1

/-- Read the source named `infile`: standard input for `-`. -/
def readSource (infile : String) : IO (Except String String) := do
  if infile == "-" then return .ok (← (← IO.getStdin).readToEnd)
  try return .ok (← IO.FS.readFile infile)
  catch e => return .error (describe infile e)

/-- Write text to the file at `path`. -/
def writeText (path text : String) : IO (Except String Unit) := do
  try
    IO.FS.writeFile path text
    return .ok ()
  catch e => return .error (describe path e)

/-- Tidy one source as the options ask. -/
def fixOne (o : Options) : IO UInt32 := do
  match ← readSource o.infile with
  | .error message => stop message
  | .ok content =>
    match Verdict.of o.dialect (o.infile != "-") (normalizeNewlines content.toList) with
    | .ignored =>
      IO.println ("Ignoring " ++ o.infile)
      return 0
    | .invalid e => stop (parseErrorMessage e)
    | .tidied text =>
      match destination o.infile o.outfile o.modifyInPlace with
      | .stdout =>
        IO.print (String.ofList text)
        return 0
      | .file path =>
        match ← writeText path (String.ofList text) with
        | .ok () => return 0
        | .error message => stop message

/-- Run the program with the arguments `args`. -/
def runMain (args : List String) : IO UInt32 := do
  match parse args with
  | .help =>
    IO.print (helpText "nice65")
    return 0
  | .version =>
    IO.eprint versionLine
    return 0
  | .usageError message =>
    IO.eprint (usageErrorText "nice65" message)
    return 2
  | .run o =>
    if o.recursive then stop "a recursive run needs a directory listing, which is not read here"
    else fixOne o

end AsmTidy.Cli

/-- The program's entry point. -/
def main (args : List String) : IO UInt32 := AsmTidy.Cli.runMain args
