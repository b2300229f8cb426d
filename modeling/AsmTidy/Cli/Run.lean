import AsmTidy.Cli.Arguments
import AsmTidy.Cli.Help
import AsmTidy.Cli.Glob
import AsmTidy.Cli.Workspace
import AsmTidy.Source
import AsmTidy.Directive

/-!
# A run of the program

A run starts from a command line, the text on standard input and the working directory. It
ends with an exit status, what it printed, and the files it leaves. It stops early when a
source cannot be read, or a file cannot be opened.

**Tidying one file.** The source is standard input when the input file is `-`, and the file
otherwise. Line breaks are normalized first. A file whose directive asks to be left alone is
not read further, and the run prints `Ignoring` and its path. Otherwise the source is
tidied, and the result goes

- back to the input file with `-m` (a file named `-` when the input was standard input);
- to standard output when the output file is `-`;
- to the output file otherwise.

The source is tidied in full before any output is opened.

**Recursive runs.** With `-r` the input names a directory. Every file below it whose name
matches the pattern is tidied in place, in walk order, and the run prints `Fixing` and its
path, on standard error, before it starts on the file.

**The command line.** The help goes to standard output, and the version line to standard
error; both end the run with status 0. A wrong command line prints the usage line and the
reason on standard error, and ends the run with status 2.
-/

namespace AsmTidy.Cli

/-- Why a run stopped early. -/
inductive Failure where
  | parse (e : ParseError)
  | os (e : OsError)
deriving DecidableEq, Repr

/-- How a run ends: its exit status, what it printed, and the files it leaves. -/
structure Outcome where
  exitCode : Nat
  stdout : String
  stderr : String
  workspace : Workspace
deriving DecidableEq, Repr

/-- What becomes of a source. -/
inductive Verdict where
  /-- The file's directive asks to leave it alone. -/
  | ignored
  | tidied (text : List Char)
  | invalid (e : ParseError)
deriving DecidableEq, Repr

/-- What becomes of the source `content`, in the dialect `d`. Only a source read from a file
is checked for a directive. -/
def Verdict.of (d : Dialect) (fromFile : Bool) (content : List Char) : Verdict :=
  if fromFile && Directive.ignores content then .ignored
  else
    match Source.format d content with
    | .ok text => .tidied text
    | .error e => .invalid e

/-- Where tidy text goes. -/
inductive Destination where
  | stdout
  | file (path : String)
deriving DecidableEq, Repr

/-- Where the text tidied from `infile` goes: back to it in place, else to `outfile`, where
`-` is standard output. -/
def destination (infile outfile : String) (inPlace : Bool) : Destination :=
  if inPlace then .file infile else if outfile == "-" then .stdout else .file outfile

/-- A run in progress. -/
structure Session where
  stdin : String
  workspace : Workspace
  stdout : String := ""
  stderr : String := ""

namespace Session

/-- The source named `infile`, with its line breaks normalized. -/
def source (s : Session) (infile : String) : Except Failure (List Char) :=
  if infile == "-" then .ok (normalizeNewlines s.stdin.toList)
  else
    match s.workspace.read infile with
    | .ok content => .ok (normalizeNewlines content.toList)
    | .error e => .error (.os e)

/-- Write the text to the file at the path `raw`. -/
def writeFile (s : Session) (raw : String) (text : String) : Except Failure Session :=
  match s.workspace.write raw text with
  | .ok w => .ok { s with workspace := w }
  | .error e => .error (.os e)

/-- Tidy one source, in the dialect `d`. -/
def fix (s : Session) (d : Dialect) (infile outfile : String) (inPlace : Bool) :
    Except Failure Session := do
  let content ← s.source infile
  match Verdict.of d (infile != "-") content with
  | .ignored => return { s with stdout := s.stdout ++ "Ignoring " ++ infile ++ "\n" }
  | .invalid e => throw (.parse e)
  | .tidied text =>
    match destination infile outfile inPlace with
    | .stdout => return { s with stdout := s.stdout ++ String.ofList text }
    | .file path => s.writeFile path (String.ofList text)

/-- Tidy in place the file shown as `path`, after announcing it. -/
def fixInPlace (s : Session) (d : Dialect) (path : String) : Except Failure Session :=
  { s with stderr := s.stderr ++ "Fixing " ++ path ++ "\n" }.fix d path "-" true

end Session

/-- The dialect the options ask for. -/
def Options.dialect (o : Options) : Dialect := if o.colonless then .colonless else .standard

/-- One step of a recursive run: the file `name`, shown as `path`, is tidied in place if its
name matches the pattern. -/
def Options.visit (o : Options) (s : Session) (file : String × String) :
    Except Failure Session :=
  if Glob.accepts o.pattern.toList file.1.toList then s.fixInPlace o.dialect file.2 else .ok s

/-- Carry out what the options ask for. -/
def Options.perform (o : Options) (s : Session) : Except Failure Session :=
  if o.recursive then List.foldlM o.visit s (s.workspace.walk o.infile)
  else s.fix o.dialect o.infile o.outfile o.modifyInPlace

/-- Run the program, started as `prog`, with the arguments `args`, the text `stdin` on
standard input, and the working directory `w`. -/
def run (prog : String) (args : List String) (stdin : String) (w : Workspace) :
    Except Failure Outcome :=
  match parse args with
  | .help => .ok ⟨0, helpText prog, "", w⟩
  | .version => .ok ⟨0, "", versionLine, w⟩
  | .usageError message => .ok ⟨2, "", usageErrorText prog message, w⟩
  | .run o =>
    (o.perform { stdin, workspace := w }).map fun s => ⟨0, s.stdout, s.stderr, s.workspace⟩

end AsmTidy.Cli
