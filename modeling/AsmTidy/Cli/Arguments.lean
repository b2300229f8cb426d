import AsmTidy.Text.Space
import AsmTidy.Text.Quote
import AsmTidy.Text.Digit

/-!
# Reading the command line

The command line names one input file and a few options:

- `-h`, `--help`: print the help and stop;
- `-o outfile`, `--outfile outfile`: where to write, `-` (the default) for standard output;
- `-m`, `--modify-in-place`: write back to the input file;
- `-r`, `--recursive`: tidy the matching files in the input directory and below it;
- `-p PATTERN`, `--pattern PATTERN`: the wildcard for `-r`, `*.s` by default;
- `-l`, `--colonless-labels`: allow labels without a colon;
- `-v`, `--version`: print the version and stop.

At most one of `-o`, `-m` and `-r` may be given. An `-o -` does not count, since it names
the default.

**Words.** First each argument is classified on its own, left to right, as an option word or
a positional word. After `--` every argument is positional.

- An argument that does not start with `-`, or is `-` alone, is positional.
- An argument that spells an option is that option.
- An argument `X=V` where `X` spells an option is that option with `V` attached.
- Otherwise, an argument starting with `--` stands for every long option it is a prefix of
  (before any `=`). An argument `-cT` stands for the short option `-c` with `T` attached.
  Two candidates make the argument ambiguous, which is an error.
- With no candidate, an argument that reads as a negative number, or that holds a space, is
  positional. Any other argument is an unknown option.

**Acting.** Then the words are read left to right. The first positional word is the input
file. Each later positional word is left over, and so is each unknown option. An option
that takes a value takes its attached text, or else the next word, which must be
positional. Short options that take no value may be run together (`-ml`). A part of such a
cluster that names no option is left over, with a `-` in front.

An option runs as soon as its word has been read: the help and the version stop the reading
there. When all words have been read, a missing input file is an error, and then so is any
leftover argument.
-/

namespace AsmTidy.Cli

open Text

/-- The options of the command line. -/
inductive Flag where
  | help
  | outfile
  | modifyInPlace
  | recursive
  | pattern
  | colonless
  | version
deriving DecidableEq, Repr

namespace Flag

/-- Every option, in the order the help lists them. -/
def all : List Flag := [help, outfile, modifyInPlace, recursive, pattern, colonless, version]

/-- The short and the long spelling of an option. -/
def spellings : Flag → List String
  | help => ["-h", "--help"]
  | outfile => ["-o", "--outfile"]
  | modifyInPlace => ["-m", "--modify-in-place"]
  | recursive => ["-r", "--recursive"]
  | pattern => ["-p", "--pattern"]
  | colonless => ["-l", "--colonless-labels"]
  | version => ["-v", "--version"]

/-- How messages name an option: its spellings joined by a slash. -/
def display (f : Flag) : String := "/".intercalate f.spellings

/-- Whether the option takes a value. -/
def takesValue : Flag → Bool
  | outfile | pattern => true
  | _ => false

/-- The options that may not be given together with this one. -/
def excludes : Flag → List Flag
  | outfile => [modifyInPlace, recursive]
  | modifyInPlace => [outfile, recursive]
  | recursive => [outfile, modifyInPlace]
  | _ => []

end Flag

/-- Every spelling with its option, in the order they are tried. -/
def spellings : List (List Char × Flag) :=
  Flag.all.flatMap fun f => f.spellings.map fun s => (s.toList, f)

/-- The option spelled exactly `s`. -/
def lookup (s : List Char) : Option Flag := (spellings.find? (·.1 == s)).map (·.2)

/-- Text attached to an option in the same argument: after `=` (`--pattern=*.s`, `-p=*.s`),
or right after a short option (`-p*.s`, `-ml`). -/
structure Attached where
  afterEquals : Bool
  text : List Char
deriving DecidableEq, Repr

/-- An argument that reads as an option. -/
structure OptionWord where
  /-- The option, or `none` for an argument that looks like an option but names none. -/
  flag : Option Flag
  /-- The spelling that matched. -/
  spelling : List Char
  attached : Option Attached
deriving DecidableEq, Repr

/-- How an argument is classified. -/
inductive Word where
  | positional
  /-- `--`: every later argument is positional. -/
  | separator
  | option (w : OptionWord)
deriving DecidableEq, Repr

/-- Whether a word reads as an option. -/
def Word.isOption : Word → Bool
  | .option _ => true
  | _ => false

/-- Whether an argument reads as a negative number: `-` and decimal digits, or `-`, digits, a
point and at least one digit. One line feed may follow. -/
def looksNegative (cs : List Char) : Bool :=
  match cs with
  | '-' :: rest =>
    let body := if rest.getLast? = some '\n' then rest.dropLast else rest
    (!body.isEmpty && body.all isDecimalDigit) ||
      match body.dropWhile isDecimalDigit with
      | '.' :: fraction => !fraction.isEmpty && fraction.all isDecimalDigit
      | _ => false
  | _ => false

/-- The options an argument of two or more characters, starting with `-`, may abbreviate.
An argument starting with `--` is split at its first `=`, and what comes before must be a
prefix of a long spelling. An argument `-cT` stands for the option `-c` with `T` attached. -/
def candidates (cs : List Char) : List OptionWord :=
  match cs with
  | '-' :: '-' :: _ =>
    let (before, after) := cs.span (· != '=')
    let attached := match after with
      | _ :: value => some ⟨true, value⟩
      | [] => none
    spellings.filterMap fun (s, f) =>
      if before.isPrefixOf s then some ⟨some f, s, attached⟩ else none
  | '-' :: c :: tail =>
    spellings.filterMap fun (s, f) =>
      if s == ['-', c] then some ⟨some f, s, some ⟨false, tail⟩⟩
      else if cs.isPrefixOf s then some ⟨some f, s, none⟩
      else none
  | _ => []

/-- Classify one argument that comes before any `--`. An ambiguous abbreviation is an error,
with its message. -/
def classify (arg : List Char) : Except String Word :=
  match arg with
  | [] => .ok .positional
  | c :: rest =>
    if c != '-' then .ok .positional
    else match lookup arg with
    | some f => .ok (.option ⟨some f, arg, none⟩)
    | none =>
      if rest.isEmpty then .ok .positional
      else
        let (before, after) := arg.span (· != '=')
        match after, lookup before with
        | _ :: value, some f => .ok (.option ⟨some f, before, some ⟨true, value⟩⟩)
        | _, _ =>
          match candidates arg with
          | [w] => .ok (.option w)
          | [] =>
            if looksNegative arg || arg.contains ' ' then .ok .positional
            else .ok (.option ⟨none, arg, none⟩)
          | ws => .error ("ambiguous option: " ++ String.ofList arg ++ " could match " ++
              ", ".intercalate (ws.map fun w => String.ofList w.spelling))

/-- Classify every argument. -/
def classifyAll : List String → Except String (List (String × Word))
  | [] => .ok []
  | "--" :: rest => .ok (("--", .separator) :: rest.map fun a => (a, .positional))
  | a :: rest => do
    let w ← classify a.toList
    let ws ← classifyAll rest
    return (a, w) :: ws

/-- The message of an error about an option. -/
def optionError (f : Flag) (message : String) : String :=
  "argument " ++ f.display ++ ": " ++ message

/-- The error for text attached to an option that cannot take it. -/
def ignoredText (f : Flag) (text : List Char) : String :=
  optionError f ("ignored explicit argument " ++ String.ofList (quote text))

/-- What one option word stands for. -/
structure Expansion where
  /-- The options, in order, each with its value (empty for an option without one). -/
  actions : List (Flag × String)
  /-- A part of a cluster that names no option, with a `-` in front. -/
  leftover : Option String
  /-- Whether the word took the next argument as its value. -/
  takesNext : Bool

/-- An option written alone, with the next argument if that is positional. -/
def expandBare (next : Option String) (f : Flag) : Except String Expansion :=
  if f.takesValue then
    match next with
    | some v => .ok ⟨[(f, v)], none, true⟩
    | none => .error (optionError f "expected one argument")
  else .ok ⟨[(f, "")], none, false⟩

/-- A short option `f` that takes no value, with text attached: the text must go on with more
short options. -/
def expandCluster (next : Option String) (f : Flag) (afterEquals : Bool) :
    List Char → Except String Expansion
  | [] => .error (ignoredText f [])
  | c :: rest =>
    if afterEquals || c == '-' then .error (ignoredText f (c :: rest))
    else match lookup ['-', c] with
    | none => .ok ⟨[(f, "")], some (String.ofList ('-' :: c :: rest)), false⟩
    | some g =>
      let more : Except String Expansion :=
        match rest with
        | [] => expandBare next g
        | '=' :: r => if g.takesValue then .ok ⟨[(g, String.ofList r)], none, false⟩
          else expandCluster next g true r
        | r => if g.takesValue then .ok ⟨[(g, String.ofList r)], none, false⟩
          else expandCluster next g false r
      more.map fun e => { e with actions := (f, "") :: e.actions }

/-- What an option word `w` for the option `f` stands for. -/
def expand (next : Option String) (f : Flag) (w : OptionWord) : Except String Expansion :=
  match w.attached with
  | none => expandBare next f
  | some ⟨afterEquals, text⟩ =>
    if f.takesValue then .ok ⟨[(f, String.ofList text)], none, false⟩
    else if (w.spelling.drop 1).head? != some '-' then expandCluster next f afterEquals text
    else .error (ignoredText f text)

/-- What the command line asks for, once read. -/
structure Options where
  infile : String
  outfile : String := "-"
  modifyInPlace : Bool := false
  recursive : Bool := false
  pattern : String := "*.s"
  colonless : Bool := false
deriving DecidableEq, Repr

/-- How the reading of a command line ends. -/
inductive Request where
  | run (o : Options)
  | help
  | version
  /-- The command line is wrong, for the reason given. -/
  | usageError (message : String)
deriving DecidableEq, Repr

/-- The command line as read so far. -/
structure Progress where
  infile : Option String := none
  outfile : String := "-"
  modifyInPlace : Bool := false
  recursive : Bool := false
  pattern : String := "*.s"
  colonless : Bool := false
  /-- The options given so far with a value other than their default, latest first. -/
  present : List Flag := []
  /-- The arguments left over so far. -/
  extras : List String := []

namespace Progress

/-- Run one option with its value. The help and the version end the reading, and so does an
option that excludes one already given. -/
def take (p : Progress) (f : Flag) (value : String) : Except Request Progress :=
  let given := match f with
    | .outfile => value != "-"
    | _ => true
  let p := if given then { p with present := f :: p.present } else p
  match (if given then f.excludes.find? p.present.contains else none) with
  | some other =>
    .error (.usageError (optionError f ("not allowed with argument " ++ other.display)))
  | none =>
    match f with
    | .help => .error .help
    | .version => .error .version
    | .outfile => .ok { p with outfile := value }
    | .modifyInPlace => .ok { p with modifyInPlace := true }
    | .recursive => .ok { p with recursive := true }
    | .pattern => .ok { p with pattern := value }
    | .colonless => .ok { p with colonless := true }

/-- Run options in order. -/
def takeAll (p : Progress) : List (Flag × String) → Except Request Progress
  | [] => .ok p
  | (f, v) :: more => do
    let p ← p.take f v
    p.takeAll more

/-- Read the words that follow the last option word: the input file, if still missing, may
stand there with a `--` before or after it; the rest is left over. Then check that there
is an input file and nothing left over. -/
def finish (p : Progress) (words : List (String × Word)) : Request :=
  let (infile, rest) : Option String × List (String × Word) :=
    match p.infile, words with
    | some a, _ => (some a, words)
    | none, (_, .separator) :: (a, .positional) :: more => (some a, more)
    | none, (a, .positional) :: (_, .separator) :: more => (some a, more)
    | none, (a, .positional) :: more => (some a, more)
    | none, _ => (none, words)
  let extras := p.extras ++ rest.map (·.1)
  match infile with
  | none => .usageError "the following arguments are required: infile"
  | some infile =>
    if extras.isEmpty then
      .run ⟨infile, p.outfile, p.modifyInPlace, p.recursive, p.pattern, p.colonless⟩
    else .usageError ("unrecognized arguments: " ++ " ".intercalate extras)

/-- Read the words. -/
def read (p : Progress) (words : List (String × Word)) : Request :=
  if words.any (·.2.isOption) then
    match words with
    | (a, .positional) :: more =>
      match p.infile with
      | none => read { p with infile := some a } more
      | some _ =>
        read { p with extras := p.extras ++ a :: (more.takeWhile (!·.2.isOption)).map (·.1) }
          (more.dropWhile (!·.2.isOption))
    | (a, .option w) :: more =>
      match w.flag with
      | none => read { p with extras := p.extras ++ [a] } more
      | some f =>
        let next := match more with
          | (v, .positional) :: _ => some v
          | _ => none
        match expand next f w with
        | .error message => .usageError message
        | .ok e =>
          match p.takeAll e.actions with
          | .error r => r
          | .ok p =>
            read { p with extras := p.extras ++ e.leftover.toList }
              (if e.takesNext then more.drop 1 else more)
    | _ => p.finish words
  else p.finish words
termination_by words.length
decreasing_by
  all_goals simp only [List.length_cons]
  · omega
  · exact Nat.lt_succ_of_le (length_dropWhile_le _ _)
  · omega
  · split <;> (try simp only [List.length_drop]) <;> omega

end Progress

/-- Read a command line. -/
def parse (args : List String) : Request :=
  match classifyAll args with
  | .error message => .usageError message
  | .ok words => Progress.read {} words

end AsmTidy.Cli
